import MultiKeyFHE.Library.Norm
import MultiKeyFHE.Native.FastProducts
import MultiKeyFHE.Rns.Leveled
import MultiKeyFHE.Rns.Rescale

/-!
# Ciphertexts on a chain of moduli

A ciphertext has the first moduli of the chain. With manual scaling, an operation on two ciphertexts drops the last towers of
the longer one, and `ModReduce` divides by the last moduli. What is encrypted stays the same modulo `t`, and its size is
that of a few sums and products.
-/

namespace MultiKeyFHE
open Negacyclic NegPoly NativeInteger Residues

namespace DCRTPoly
variable {L N : ℕ} {K : Basis (Fin L)} {m n t : ℕ} {w : NativeSize}

/-- `DropLastElements`, with `n` towers left. With all towers left nothing changes. -/
def dropTo (n : ℕ) (le : n ≤ m) {h : m ≤ L} (a : DCRTPoly (K.take m h) N) : DCRTPoly (K.take n (le.trans h)) N :=
  ⟨a.format, fun i => a.vectors (Fin.castLE le i)⟩

/-- The loop of `ModReduceInternalInPlace` over the moduli. -/
def modReduceLevels (w : NativeSize) (t n : ℕ) : (levels : ℕ) → {h : n + levels ≤ L} → DCRTPoly (K.take (n + levels) h) N →
    Except Fault (DCRTPoly (K.take n (Nat.le_of_add_right_le h)) N)
  | 0, _, a => .ok a
  | levels + 1, h, a => do
    let a ← a.modReduce w t
    modReduceLevels w t n levels (h := Nat.le_of_succ_le h) a

/-! ### What is left of a polynomial -/

section Dropping
variable [NeZero N] {X : NegPoly N ℤ}

theorem Holds.dropTo (le : n ≤ m) {h : m ≤ L} {a : DCRTPoly (K.take m h) N} (ha : a.Holds X) : (a.dropTo n le).Holds X :=
  ⟨ha.format, fun i => ha.consistent (Fin.castLE le i), fun i => ha.represents (Fin.castLE le i)⟩

omit [NeZero N] in
theorem consistent_setFormat {ι : Type*} {B : Basis ι} {a : DCRTPoly B N} (consistent : a.Consistent) (format : Format) :
    (a.setFormat format).format = format ∧ (a.setFormat format).Consistent := by
  unfold setFormat
  split
  · rename_i differs
    refine ⟨?_, fun i => congrArg Format.other (consistent i)⟩
    rw [switchFormat]
    cases h : a.format <;> cases format <;> simp_all [Format.other]
  · rename_i same
    exact ⟨not_not.mp same, consistent⟩

theorem represents_setFormat {ι : Type*} {B : Basis ι} {a : DCRTPoly B N} (represents : a.Represents X) (format : Format) :
    (a.setFormat format).Represents X := by
  unfold setFormat
  split <;> exact represents

/-- `Y` is `X` divided by `D`: `D * Y` is `X` modulo `t`, and no coefficient of the difference is larger than `δ`. -/
structure Divides (t D : ℕ) (δ : ℚ) (X Y : NegPoly N ℤ) : Prop where
  same : residue t (const (D : ℤ) * Y) = residue t X
  near : Within δ (const (D : ℤ) * Y - X)

theorem divides_of_scaled {D : ℕ} {Y : NegPoly N ℤ} (scaled : ∀ j, Scaled t D (X.coeff j) (Y.coeff j)) :
    Divides t D (t * (D - 1)) X Y where
  same := residue_eq_iff.mpr fun j => by
    rw [coeff_const_mul]
    exact (scaled j).same
  near j := by
    rw [coeff_sub, coeff_const_mul]
    exact_mod_cast (scaled j).near

theorem Divides.mono {D : ℕ} {δ ε : ℚ} {Y : NegPoly N ℤ} (divides : Divides t D δ X Y) (le : δ ≤ ε) : Divides t D ε X Y :=
  ⟨divides.same, divides.near.mono le⟩

/-- Values of polynomials in the key are divided with the coefficients. -/
theorem Divides.value {D : ℕ} {δ : ℚ} {S : NegPoly N ℤ} {W Y : List (NegPoly N ℤ)} (each : List.Forall₂ (Divides t D δ) W Y) :
    Divides t D ((∑ k ∈ Finset.range W.length, weight S ^ k) * δ) (Horner.value S W) (Horner.value S Y) := by
  induction each with
  | nil => exact ⟨by simp, by simpa using within_zero le_rfl⟩
  | @cons X Y W Z first _ ih =>
    have split : const (D : ℤ) * Horner.value S (Y :: Z) - Horner.value S (X :: W) =
        (const (D : ℤ) * Y - X) + S * (const (D : ℤ) * Horner.value S Z - Horner.value S W) := by
      rw [Horner.value_cons, Horner.value_cons]
      ring
    refine ⟨?_, ?_⟩
    · calc residue t (const (D : ℤ) * Horner.value S (Y :: Z))
          = residue t (const (D : ℤ) * Y) + residue t S * residue t (const (D : ℤ) * Horner.value S Z) := by
            rw [Horner.value_cons, ← map_mul, ← map_add]
            congr 1
            ring
        _ = residue t (Horner.value S (X :: W)) := by rw [first.same, ih.same, Horner.value_cons, map_add, map_mul]
    · rw [split, List.length_cons, geom_sum_succ]
      refine (first.near.add (ih.near.weight_mul (a := S))).mono (le_of_eq ?_)
      ring

/-- Modulo `t` nothing changes where the divisor is one, and what is divided gets smaller. -/
theorem Divides.within {D : ℕ} {δ ε : ℚ} {Y : NegPoly N ℤ} (divides : Divides t D δ X Y) (pos : 0 < D) (small : Within ε X) :
    Within ((ε + δ) / D) Y := by
  intro j
  have positive : (0 : ℚ) < D := by exact_mod_cast pos
  have sum := small.add divides.near j
  rw [add_sub_cancel, coeff_const_mul, Int.cast_mul, abs_mul, Int.cast_natCast, Nat.abs_cast] at sum
  rw [le_div_iff₀ positive, mul_comm]
  exact sum

theorem Divides.residue_eq {D : ℕ} {δ : ℚ} {Y : NegPoly N ℤ} (divides : Divides t D δ X Y) (one : D ≡ 1 [MOD t]) :
    residue t Y = residue t X := by
  rw [← divides.same]
  refine residue_eq_iff.mpr fun j => ?_
  rw [coeff_const_mul]
  have unit : (D : ℤ) ≡ 1 [ZMOD t] := by exact_mod_cast Int.natCast_modEq_iff.mpr one
  simpa using (unit.mul_right (Y.coeff j)).symm

/-- The moduli are one modulo `t`, as the parameter generation for manual scaling chooses them, and native vectors take them. -/
structure Chain (w : NativeSize) (K : Basis (Fin L)) (t : ℕ) : Prop where
  two_le : 2 ≤ t
  small : ¬ modulusTooLarge w t
  one : ∀ i, K.q i ≡ 1 [MOD t]
  fits : ∀ i, ¬ modulusTooLarge w (K.q i)

theorem modReduceLevels_spec (chain : Chain w K t) (pos : 0 < n) : ∀ (levels : ℕ) {h : n + levels ≤ L}
    {a : DCRTPoly (K.take (n + levels) h) N} {X : NegPoly N ℤ}, a.Consistent → a.Represents X →
    ∃ c Y, modReduceLevels w t n levels a = .ok c ∧ c.format = a.format ∧ c.Consistent ∧ c.Represents Y ∧
      ∀ j, Scaled t (K.dropped n (n + levels)) (X.coeff j) (Y.coeff j)
  | 0, _, a, X, consistent, represents =>
    ⟨a, X, rfl, rfl, consistent, represents, fun j => by rw [Nat.add_zero, K.dropped_self]; exact Scaled.refl t _⟩
  | levels + 1, h, a, X, consistent, represents => by
    have : NeZero (n + levels) := ⟨by omega⟩
    have coprime : t.Coprime (K.take (n + levels + 1) h).last :=
      (Nat.coprime_of_mul_modEq_one 1 (by rw [mul_one]; exact chain.one _)).symm
    obtain ⟨b, Y, once, format, kept, holds, first⟩ := modReduce_spec (fun i => chain.fits _) coprime consistent represents
    obtain ⟨c, Z, rest, format', kept', holds', second⟩ :=
      modReduceLevels_spec chain pos levels (h := Nat.le_of_succ_le h) (a := b) kept holds
    refine ⟨c, Z, ?_, format'.trans format, kept', holds', fun j => ?_⟩
    · rw [modReduceLevels, once]
      exact rest
    · rw [← Nat.add_assoc, K.dropped_succ (Nat.le_add_right n levels) h]
      exact (first j).trans (second j)

theorem mapM_modReduceLevels (chain : Chain w K t) (pos : 0 < n) {levels : ℕ} {h : n + levels ≤ L}
    {cv : List (DCRTPoly (K.take (n + levels) h) N)} {W : List (NegPoly N ℤ)} (holds : List.Forall₂ Holds cv W) :
    ∃ cv' Z, cv.mapM (modReduceLevels w t n levels) = .ok cv' ∧ List.Forall₂ Holds cv' Z ∧
      List.Forall₂ (Divides t (K.dropped n (n + levels)) (t * (K.dropped n (n + levels) - 1))) W Z := by
  induction holds with
  | nil => exact ⟨[], [], rfl, .nil, .nil⟩
  | @cons a X cv W ha _ ih =>
    obtain ⟨b, Y, once, format, consistent, represents, scaled⟩ :=
      modReduceLevels_spec chain pos levels ha.consistent ha.represents
    obtain ⟨cv', Z, run, holds', divides⟩ := ih
    have first : b.Holds Y := ⟨format.trans ha.format, consistent, represents⟩
    refine ⟨b :: cv', Y :: Z, ?_, .cons first holds', .cons (divides_of_scaled scaled) divides⟩
    rw [List.mapM_cons, once, run]
    rfl

end Dropping

end DCRTPoly

/-- A ciphertext has towers left. The noise scale degree and the level are counted, but with manual scaling nothing reads them. -/
structure Ciphertext {L : ℕ} (K : Basis (Fin L)) (N : ℕ) where
  towers : ℕ
  positive : 0 < towers
  inside : towers ≤ L
  elements : List (DCRTPoly (K.take towers inside) N)
  scalingFactorInt : ℕ

namespace Ciphertext
open DCRTPoly LeveledSHE
variable {L N : ℕ} {K : Basis (Fin L)}

/-- The elements with `n` towers left. -/
def elementsAt (c : Ciphertext K N) (n : ℕ) (le : n ≤ c.towers) : List (DCRTPoly (K.take n (le.trans c.inside)) N) :=
  c.elements.map (DCRTPoly.dropTo n le)

section Sums
variable (core : ∀ {n : ℕ} {h : n ≤ L}, List (DCRTPoly (K.take n h) N) → List (DCRTPoly (K.take n h) N) → List (DCRTPoly (K.take n h) N))

/-- `EvalAddInPlace` and `EvalSubInPlace` differ in the core. `AdjustLevelsInPlace` drops the last towers of the longer
ciphertext. -/
def adjusted (c1 c2 : Ciphertext K N) : Ciphertext K N where
  towers := min c1.towers c2.towers
  positive := lt_min c1.positive c2.positive
  inside := (min_le_left c1.towers c2.towers).trans c1.inside
  elements := core (c1.elementsAt _ (min_le_left c1.towers c2.towers)) (c2.elementsAt _ (min_le_right c1.towers c2.towers))
  scalingFactorInt := c1.scalingFactorInt

end Sums

def evalAdd (c1 c2 : Ciphertext K N) : Ciphertext K N := adjusted evalAddCore c1 c2

def evalSub (c1 c2 : Ciphertext K N) : Ciphertext K N := adjusted evalSubCore c1 c2

section Products
variable (w : NativeSize) (t : ℕ)

/-- `EvalMult` without a key to relinearise. -/
def evalMult (c1 c2 : Ciphertext K N) : Except Fault (Ciphertext K N) := do
  let elements ← evalMultCore (c1.elementsAt _ (min_le_left c1.towers c2.towers))
    (c2.elementsAt _ (min_le_right c1.towers c2.towers))
  return {
    towers := min c1.towers c2.towers
    positive := lt_min c1.positive c2.positive
    inside := (min_le_left c1.towers c2.towers).trans c1.inside
    elements
    scalingFactorInt := modMul w c1.scalingFactorInt c2.scalingFactorInt t }

def evalSquare (c : Ciphertext K N) : Except Fault (Ciphertext K N) := do
  let elements ← evalSquareCore c.elements
  return { c with elements, scalingFactorInt := modMul w c.scalingFactorInt c.scalingFactorInt t }

/-- `ModReduceInternalInPlace`. -/
def modReduce (levels : ℕ) (c : Ciphertext K N) : Except Fault (Ciphertext K N) :=
  if enough : levels < c.towers then do
    let elements ← (c.elementsAt (c.towers - levels + levels) (Nat.sub_add_cancel enough.le).le).mapM
      (modReduceLevels w t (c.towers - levels) levels)
    return {
      towers := c.towers - levels
      positive := Nat.sub_pos_of_lt enough
      inside := (Nat.sub_le c.towers levels).trans c.inside
      elements
      scalingFactorInt := c.scalingFactorInt }
  else .error (.configError "ERROR: Not enough towers to support ModReduce.")

end Products

/-- `LevelReduceInPlace`. -/
def levelReduce (levels : ℕ) (c : Ciphertext K N) : Except Fault (Ciphertext K N) :=
  if enough : levels < c.towers then
    .ok {
      towers := c.towers - levels
      positive := Nat.sub_pos_of_lt enough
      inside := (Nat.sub_le c.towers levels).trans c.inside
      elements := c.elementsAt (c.towers - levels) (Nat.sub_le c.towers levels)
      scalingFactorInt := c.scalingFactorInt }
  else .error (.configError "There are not enough towers in the current ciphertext to perform the modulus reduction")

/-! ### What a ciphertext stands for -/

/-- The towers and elements of a ciphertext and the size of what it encrypts. -/
structure Estimate where
  towers : ℕ
  length : ℕ
  size : ℚ
  deriving Inhabited

variable [NeZero N]

/-- The elements encrypt a polynomial of this size that is `m` modulo `t`. -/
structure Tracks (S : NegPoly N ℤ) {t : ℕ} (c : Ciphertext K N) (m : NativePoly N t) (estimate : Estimate) : Prop where
  towers : c.towers = estimate.towers
  length : c.elements.length = estimate.length
  pos : 0 < estimate.length
  factor : c.scalingFactorInt = 1
  value : ∃ V, Encrypts S c.elements V ∧ residue t V = m ∧ Within estimate.size V

section Steps
variable {S V : NegPoly N ℤ} {t : ℕ} {c c1 c2 : Ciphertext K N} {m1 m2 m : NativePoly N t} {e1 e2 e : Estimate} {w : NativeSize}

omit [NeZero N] in
theorem elementsAt_length (n : ℕ) (le : n ≤ c.towers) : (c.elementsAt n le).length = c.elements.length := List.length_map _

omit [NeZero N] in
theorem elementsAt_ne_nil {n : ℕ} (le : n ≤ c.towers) (nonempty : c.elements ≠ []) : c.elementsAt n le ≠ [] :=
  mt List.map_eq_nil_iff.mp nonempty

theorem elementsAt_encrypts {n : ℕ} (le : n ≤ c.towers) (h : Encrypts S c.elements V) : Encrypts S (c.elementsAt n le) V := by
  obtain ⟨W, holds, value⟩ := h
  exact ⟨W, List.forall₂_map_left_iff.mpr (holds.imp fun _ _ h => h.dropTo le), value⟩

theorem Tracks.ne_nil (h : Tracks S c m e) : c.elements ≠ [] := by
  have length := h.length
  have pos := h.pos
  intro empty
  rw [empty] at length
  simp at length
  omega

section Sums
variable {core : ∀ {n : ℕ} {h : n ≤ L}, List (DCRTPoly (K.take n h) N) → List (DCRTPoly (K.take n h) N) → List (DCRTPoly (K.take n h) N)}

theorem adjusted_tracks (h1 : Tracks S c1 m1 e1) (h2 : Tracks S c2 m2 e2)
    (length : ∀ {n : ℕ} {h : n ≤ L} (cv cv' : List (DCRTPoly (K.take n h) N)), (core cv cv').length = max cv.length cv'.length)
    (encrypts : Encrypts S (adjusted core c1 c2).elements V) (value : residue t V = m) (small : Within (e1.size + e2.size) V) :
    Tracks S (adjusted core c1 c2) m ⟨min e1.towers e2.towers, max e1.length e2.length, e1.size + e2.size⟩ := by
  refine ⟨congrArg₂ min h1.towers h2.towers, ?_, lt_max_of_lt_left h1.pos, h1.factor, V, encrypts, value, small⟩
  rw [adjusted, length, elementsAt_length, elementsAt_length, h1.length, h2.length]

end Sums

theorem evalAdd_tracks (h1 : Tracks S c1 m1 e1) (h2 : Tracks S c2 m2 e2) :
    Tracks S (c1.evalAdd c2) (m1 + m2) ⟨min e1.towers e2.towers, max e1.length e2.length, e1.size + e2.size⟩ := by
  obtain ⟨V1, encrypts1, value1, small1⟩ := h1.value
  obtain ⟨V2, encrypts2, value2, small2⟩ := h2.value
  refine adjusted_tracks h1 h2 evalAddCore_length ?_ ?_ (small1.add small2)
  · exact evalAddCore_encrypts (elementsAt_encrypts _ encrypts1) (elementsAt_encrypts _ encrypts2)
  · rw [map_add, value1, value2]

theorem evalSub_tracks (h1 : Tracks S c1 m1 e1) (h2 : Tracks S c2 m2 e2) :
    Tracks S (c1.evalSub c2) (m1 - m2) ⟨min e1.towers e2.towers, max e1.length e2.length, e1.size + e2.size⟩ := by
  obtain ⟨V1, encrypts1, value1, small1⟩ := h1.value
  obtain ⟨V2, encrypts2, value2, small2⟩ := h2.value
  refine adjusted_tracks h1 h2 evalSubCore_length ?_ ?_ (small1.sub small2)
  · exact evalSubCore_encrypts (elementsAt_encrypts _ encrypts1) (elementsAt_encrypts _ encrypts2)
  · rw [map_sub, value1, value2]

theorem modMul_one (two_le : 2 ≤ t) (small : ¬ modulusTooLarge w t) : modMul w 1 1 t = 1 := by
  have room := lt_of_not_tooLarge small
  have split : 2 ^ w.bits = 2 ^ (w.bits - 4) * 16 := by cases w <;> rfl
  rw [modMul_eq two_le (by omega), Nat.mod_eq_of_lt (by omega : 1 < t), mul_one, Nat.mod_eq_of_lt (by omega)]

theorem evalMult_tracks (two_le : 2 ≤ t) (small : ¬ modulusTooLarge w t) (h1 : Tracks S c1 m1 e1) (h2 : Tracks S c2 m2 e2) :
    ∃ c, c1.evalMult w t c2 = .ok c ∧
      Tracks S c (m1 * m2) ⟨min e1.towers e2.towers, e1.length + e2.length - 1, N * (e1.size * e2.size)⟩ := by
  obtain ⟨V1, encrypts1, value1, small1⟩ := h1.value
  obtain ⟨V2, encrypts2, value2, small2⟩ := h2.value
  obtain ⟨elements, run, encrypts, length⟩ :=
    evalMultCore_encrypts (elementsAt_ne_nil _ h1.ne_nil) (elementsAt_ne_nil _ h2.ne_nil)
      (elementsAt_encrypts (min_le_left c1.towers c2.towers) encrypts1)
      (elementsAt_encrypts (min_le_right c1.towers c2.towers) encrypts2)
  have positive := h1.pos
  have positive' := h2.pos
  rw [elementsAt_length, elementsAt_length, h1.length, h2.length] at length
  refine ⟨_, by rw [evalMult, run]; rfl, ?_⟩
  refine ⟨congrArg₂ min h1.towers h2.towers, length, ?_, ?_, V1 * V2, encrypts, ?_, small1.mul small2⟩
  · change 0 < e1.length + e2.length - 1
    omega
  · change modMul w _ _ t = 1
    rw [h1.factor, h2.factor, modMul_one two_le small]
  · rw [map_mul, value1, value2]

theorem evalSquare_tracks (two_le : 2 ≤ t) (small : ¬ modulusTooLarge w t) (h : Tracks S c m e) :
    ∃ c', c.evalSquare w t = .ok c' ∧ Tracks S c' (m * m) ⟨e.towers, 2 * e.length - 1, N * (e.size * e.size)⟩ := by
  obtain ⟨V, encrypts, value, within⟩ := h.value
  obtain ⟨elements, run, encrypts', length⟩ := evalSquareCore_encrypts h.ne_nil encrypts
  have positive := h.pos
  rw [h.length] at length
  refine ⟨_, by rw [evalSquare, run]; rfl, ?_⟩
  refine ⟨h.towers, length, ?_, ?_, V * V, encrypts', ?_, within.mul within⟩
  · change 0 < 2 * e.length - 1
    omega
  · change modMul w _ _ t = 1
    rw [h.factor, modMul_one two_le small]
  · rw [map_mul, value]

theorem levelReduce_tracks {levels : ℕ} (enough : levels < e.towers) (h : Tracks S c m e) :
    ∃ c', c.levelReduce levels = .ok c' ∧ Tracks S c' m ⟨e.towers - levels, e.length, e.size⟩ := by
  obtain ⟨V, encrypts, value, within⟩ := h.value
  rw [← h.towers] at enough ⊢
  refine ⟨_, dif_pos enough, rfl, ?_, h.pos, h.factor, V, ?_, value, within⟩
  · exact (elementsAt_length _ _).trans h.length
  · exact elementsAt_encrypts _ encrypts

theorem modReduce_tracks (chain : Chain w K t) {ω : ℚ} (heavy : weight S ≤ ω) {levels : ℕ} (enough : levels < e.towers)
    (h : Tracks S c m e) :
    ∃ c', c.modReduce w t levels = .ok c' ∧ Tracks S c' m ⟨e.towers - levels, e.length,
      (e.size + (∑ k ∈ Finset.range e.length, ω ^ k) * (t * (K.dropped (e.towers - levels) e.towers - 1))) /
        K.dropped (e.towers - levels) e.towers⟩ := by
  obtain ⟨V, encrypts, value, within⟩ := h.value
  rw [← h.towers] at enough ⊢
  have whole := Nat.sub_add_cancel enough.le
  obtain ⟨W, holds, rfl⟩ := elementsAt_encrypts (n := c.towers - levels + levels) whole.le encrypts
  obtain ⟨elements, Z, run, holds', divides⟩ := mapM_modReduceLevels chain (Nat.sub_pos_of_lt enough) holds
  rw [whole] at divides
  have length : W.length = e.length := by rw [← holds.length_eq, elementsAt_length, h.length]
  have total : ∑ k ∈ Finset.range W.length, weight S ^ k ≤ ∑ k ∈ Finset.range W.length, ω ^ k :=
    Finset.sum_le_sum fun k _ => pow_le_pow_left₀ (weight_nonneg S) heavy k
  have positive : (1 : ℚ) ≤ K.dropped (c.towers - levels) c.towers := by exact_mod_cast K.dropped_pos _ _
  have divided := (Divides.value (S := S) divides).mono
    (mul_le_mul_of_nonneg_right total (mul_nonneg (Nat.cast_nonneg t) (sub_nonneg.mpr positive)))
  refine ⟨_, by rw [modReduce, dif_pos enough, run]; rfl, ?_⟩
  refine ⟨rfl, ?_, h.pos, h.factor, Horner.value S Z, ⟨Z, holds', rfl⟩, ?_, ?_⟩
  · exact holds'.length_eq.trans (divides.length_eq.symm.trans length)
  · rw [divided.residue_eq (K.dropped_modEq_one chain.one _ _), value]
  · rw [← length]
    exact divided.within (K.dropped_pos _ _) within

end Steps

end Ciphertext
end MultiKeyFHE
