import MultiKeyFHE.Polynomial.Operations
import MultiKeyFHE.Library.Substitution

/-!
# Operations in either format

A vector shows a polynomial in one format or the other, by its coefficients or by its evaluations. Each operation works
on the entries, and what it returns shows the right polynomial in the same format.
-/

namespace MultiKeyFHE
open NativeInteger NumberTheoreticTransform Negacyclic NegPoly

/-- A ring with a primitive root and tables. -/
structure TransformRing (w : NativeSize) (q L psi : ℕ) : Prop where
  prime : q.Prime
  room : ¬ modulusTooLarge w q
  lt : psi < q
  root : IsPrimitiveRoot (psi : ZMod q) (2 ^ (L + 1))
  one : 1 ≤ L
  small : L ≤ 24

def ringParams (q L psi : ℕ) : ILParams := ⟨2 ^ (L + 1), 2 ^ L, q, psi⟩

/-- The polynomial with these values. -/
def polyOf (q L psi : ℕ) (format : Format) (x : List ℕ) : PolyImpl := ⟨ringParams q L psi, format, some ⟨x, q⟩⟩

/-- What entry `i` stands for, if the evaluations are those at the odd powers of `rho`. -/
def view {q L : ℕ} (rho : ℕ) (format : Format) (f : NativePoly (2 ^ L) q) (i : Fin (2 ^ L)) : ZMod q :=
  match format with
  | .coefficient => f.coeff i
  | .evaluation => NativePoly.slot rho f i

/-- The residues of `x` are the entries of `f` in this format. -/
structure Shows {q L : ℕ} (rho : ℕ) (format : Format) (f : NativePoly (2 ^ L) q) (x : List ℕ) : Prop where
  length : x.length = 2 ^ L
  residues : ∀ i : Fin (2 ^ L), ((x.getD i 0 : ℕ) : ZMod q) = view rho format f i

variable {w : NativeSize} {q L psi rho : ℕ} {format : Format} {f g h : NativePoly (2 ^ L) q} {x y : List ℕ}

/-! ### Views -/

theorem view_add (i : Fin (2 ^ L)) : view rho format (f + g) i = view rho format f i + view rho format g i := by
  cases format with
  | coefficient => rfl
  | evaluation => exact evalAt_add _ f g

theorem view_sub (i : Fin (2 ^ L)) : view rho format (f - g) i = view rho format f i - view rho format g i := by
  cases format with
  | coefficient => rfl
  | evaluation => exact evalAt_sub _ f g

theorem slot_add_const (s : ZMod q) (i : ℕ) :
    NativePoly.slot rho (f + const s) i = NativePoly.slot rho f i + s := by
  rw [NativePoly.slot, evalAt_add]
  exact congrArg _ (NativePoly.slot_const (rho : ZMod q) s i)

theorem view_const_mul (half : (rho : ZMod q) ^ 2 ^ L = -1) (s : ZMod q) (i : Fin (2 ^ L)) :
    view rho format (const s * f) i = s * view rho format f i := by
  cases format with
  | coefficient => exact coeff_const_mul s f i
  | evaluation =>
    refine (evalAt_mul (odd_pow_pow half _) (const s) f).trans ?_
    rw [evalAt_const, Algebra.algebraMap_self, RingHom.id_apply]
    rfl

/-! ### Operations entry by entry -/

theorem shows_getElem (shows : Shows rho format f x) (i : Fin (2 ^ L)) (inside : i.val < x.length) :
    ((x[i.val] : ℕ) : ZMod q) = view rho format f i := by
  rw [← shows.residues i, List.getD_eq_getElem]

theorem Shows.zipWith (showsF : Shows rho format f x) (showsG : Shows rho format g y) {F : ℕ → ℕ → ℕ}
    (entries : ∀ i : Fin (2 ^ L), ∀ a ∈ x, ∀ b ∈ y, (a : ZMod q) = view rho format f i → (b : ZMod q) = view rho format g i →
      ((F a b : ℕ) : ZMod q) = view rho format h i) : Shows rho format h (List.zipWith F x y) := by
  have length : (List.zipWith F x y).length = 2 ^ L := by
    rw [List.length_zipWith, showsF.length, showsG.length, Nat.min_self]
  refine ⟨length, fun i => ?_⟩
  have hx : i.val < x.length := by rw [showsF.length]; exact i.2
  have hy : i.val < y.length := by rw [showsG.length]; exact i.2
  rw [List.getD_eq_getElem _ _ (by rw [length]; exact i.2), List.getElem_zipWith]
  exact entries i _ (List.getElem_mem hx) _ (List.getElem_mem hy) (shows_getElem showsF i hx) (shows_getElem showsG i hy)

theorem Shows.map (showsF : Shows rho format f x) {F : ℕ → ℕ}
    (entries : ∀ i : Fin (2 ^ L), ∀ a ∈ x, (a : ZMod q) = view rho format f i →
      ((F a : ℕ) : ZMod q) = view rho format h i) : Shows rho format h (x.map F) := by
  refine ⟨by rw [List.length_map, showsF.length], fun i => ?_⟩
  have hx : i.val < x.length := by rw [showsF.length]; exact i.2
  rw [List.getD_eq_getElem _ _ (by rw [List.length_map]; exact hx), List.getElem_map]
  exact entries i _ (List.getElem_mem hx) (shows_getElem showsF i hx)

theorem Shows.residues_eq (left : Shows rho format f x) (right : Shows rho format f y) :
    x.map (Nat.cast : ℕ → ZMod q) = y.map Nat.cast := by
  refine List.ext_getElem (by rw [List.length_map, List.length_map, left.length, right.length]) fun i hi hi' => ?_
  rw [List.length_map] at hi hi'
  have inside : i < 2 ^ L := by rw [← left.length]; exact hi
  rw [List.getElem_map, List.getElem_map, shows_getElem left ⟨i, inside⟩ hi, shows_getElem right ⟨i, inside⟩ hi']

/-- A reduced vector that shows `f`. -/
structure Represents {q L : ℕ} (rho : ℕ) (format : Format) (f : NativePoly (2 ^ L) q) (x : List ℕ) : Prop where
  shows : Shows rho format f x
  lt : ∀ a ∈ x, a < q

/-- The operation returns a reduced polynomial that shows `h`. -/
def Gives {q L : ℕ} (psi rho : ℕ) (format : Format) (h : NativePoly (2 ^ L) q) (run : Except Fault PolyImpl) : Prop :=
  ∃ z, run = .ok (polyOf q L psi format z) ∧ Represents rho format h z

theorem TransformRing.word (ring : TransformRing w q L psi) : 2 * q ≤ 2 ^ w.bits := by
  have := lt_of_not_tooLarge ring.room
  omega

theorem TransformRing.pos (ring : TransformRing w q L psi) : 0 < q := ring.prime.pos

theorem TransformRing.half (ring : TransformRing w q L psi) : (psi : ZMod q) ^ 2 ^ L = -1 :=
  half_of_primitive ring.prime ring.root

theorem TransformRing.root_ne_zero (ring : TransformRing w q L psi) : (ringParams q L psi).rootOfUnity ≠ 0 := by
  have : Fact q.Prime := ⟨ring.prime⟩
  intro zero
  have cast : (psi : ZMod q) = 0 := by
    rw [show psi = 0 from zero, Nat.cast_zero]
  exact ring.root.ne_zero (by positivity) cast

theorem setValues_gives (ring : TransformRing w q L psi) {z : List ℕ} (rep : Represents rho format h z) :
    Gives psi rho format h ((polyOf q L psi format x).setValues ⟨z, q⟩ format) := by
  refine ⟨z, ?_, rep⟩
  have length : 2 ^ L = z.length := rep.shows.length.symm
  rw [PolyImpl.setValues, if_neg (show ¬ (polyOf q L psi format x).params.rootOfUnity = 0 from ring.root_ne_zero),
    if_neg (by simp [polyOf, length, ringParams])]
  rfl

theorem fits_polyOf (length : y.length = x.length) : WordVector.Fits ⟨x, q⟩ ⟨y, q⟩ := ⟨rfl, length⟩

section Entrywise
variable (ring : TransformRing w q L psi) (repF : Represents rho format f x)
include ring repF

section Binary
variable (repG : Represents rho format g y)
include repG

theorem sum_represents : Represents rho format (f + g) (List.zipWith (fun a b => modAddFast w a b q) x y) := by
  have word := ring.word
  refine ⟨repF.shows.zipWith repG.shows fun i a ha b hb left right => ?_, ?_⟩
  · rw [modAddFast_eq (repF.lt a ha) (repG.lt b hb) word, ZMod.natCast_mod, Nat.cast_add, left, right, view_add]
  · refine WordVector.forall_zipWith_lt.mpr fun p hp => ?_
    obtain ⟨left, right⟩ := List.of_mem_zip (a := p.1) (b := p.2) hp
    exact modAddFast_lt (repF.lt _ left) (repG.lt _ right) (by omega)

theorem difference_represents : Represents rho format (f - g) (List.zipWith (fun a b => modSubFast w a b q) x y) := by
  have word := ring.word
  refine ⟨repF.shows.zipWith repG.shows fun i a ha b hb left right => ?_, ?_⟩
  · have below := repG.lt b hb
    rw [modSubFast_eq (repF.lt a ha) below (by omega), ZMod.natCast_mod, Nat.cast_sub (by omega), Nat.cast_add,
      ZMod.natCast_self, add_zero, left, right, view_sub]
  · refine WordVector.forall_zipWith_lt.mpr fun p hp => ?_
    obtain ⟨left, right⟩ := List.of_mem_zip (a := p.1) (b := p.2) hp
    exact modSubFast_lt (repF.lt _ left) (repG.lt _ right) (by omega)

omit ring in
theorem same_length : y.length = x.length := by rw [repF.shows.length, repG.shows.length]

theorem plus_gives : Gives psi rho format (f + g) ((polyOf q L psi format x).plus w (polyOf q L psi format y)) := by
  refine ⟨_, ?_, sum_represents ring repF repG⟩
  have sum := (WordVector.modAddNoCheckEq_eq (w := w) (fits_polyOf (q := q) (same_length repF repG)) "").trans
    (WordVector.entrywise_eq "" _ (fits_polyOf (same_length repF repG)))
  simp only [PolyImpl.plus, polyOf, PolyImpl.getValues, ne_eq, not_true_eq_false, if_false]
  dsimp only [bind, Except.bind, pure, Except.pure]
  rw [sum]

theorem minus_gives : Gives psi rho format (f - g) ((polyOf q L psi format x).minus w (polyOf q L psi format y)) := by
  have difference := WordVector.entrywise_eq "ModSub called on NativeVectorT's with different parameters."
    (fun a b => modSubFast w a b q) (fits_polyOf (q := q) (same_length repF repG))
  have stored := setValues_gives (x := x) ring (difference_represents ring repF repG)
  simp only [PolyImpl.minus, polyOf, PolyImpl.getValues, WordVector.modSub]
  dsimp only [bind, Except.bind]
  rw [difference]
  exact stored

end Binary

theorem zero_represents : Represents rho format (0 : NativePoly (2 ^ L) q) (List.replicate (2 ^ L) 0) := by
  have pos := ring.pos
  refine ⟨⟨List.length_replicate, fun i => ?_⟩, ?_⟩
  · rw [List.getD_eq_getElem _ _ (by rw [List.length_replicate]; exact i.2), List.getElem_replicate, Nat.cast_zero]
    cases format with
    | coefficient => rfl
    | evaluation => exact (evalAt_zero _).symm
  · intro a ha
    rw [List.eq_of_mem_replicate ha]
    exact pos

theorem negate_gives : Gives psi rho format (-f) ((polyOf q L psi format x).negate w) := by
  have zero := zero_represents ring repF
  have rep := difference_represents ring zero repF
  rw [zero_sub] at rep
  refine ⟨_, ?_, rep⟩
  have difference := WordVector.entrywise_eq "ModSubEq called on NativeVectorT's with different parameters."
    (fun a b => modSubFast w a b q) (fits_polyOf (q := q) (same_length zero repF))
  simp only [PolyImpl.negate, PolyImpl.minusEq, PolyImpl.zero, polyOf, ringParams, PolyImpl.getValues, WordVector.modSubEq,
    Option.getD_some]
  dsimp only [bind, Except.bind]
  rw [difference]
  rfl

theorem product_represents (half : (rho : ZMod q) ^ 2 ^ L = -1) (s : ℕ) : Represents rho format (const (s : ZMod q) * f)
    (x.map fun a => modMulFastConst w a (s % q) q (wrap w (s % q * 2 ^ w.bits / q))) := by
  have word := ring.word
  have below : s % q < q := Nat.mod_lt _ ring.pos
  refine ⟨repF.shows.map fun i a ha value => ?_, ?_⟩
  · have := repF.lt a ha
    rw [modMulFastConst_eq (by omega) below word, ZMod.natCast_mod, Nat.cast_mul, ZMod.natCast_mod, value,
      view_const_mul half, mul_comm]
  · intro b hb
    obtain ⟨a, ha, rfl⟩ := List.mem_map.mp hb
    have := repF.lt a ha
    exact modMulFastConst_lt (by omega) below (by omega)

theorem timesScalar_gives (half : (rho : ZMod q) ^ 2 ^ L = -1) (s : ℕ) :
    Gives psi rho format (const (s : ZMod q) * f) ((polyOf q L psi format x).timesScalar w s) := by
  have stored := setValues_gives (x := x) ring (product_represents ring repF half s)
  have product := WordVector.modMulScalar_eq (w := w) (a := ⟨x, q⟩) ring.pos s
  simp only [PolyImpl.timesScalar, polyOf, PolyImpl.getValues]
  dsimp only [bind, Except.bind]
  rw [product]
  exact stored

omit repF in
theorem signedFactor_eq {e : ℤ} (fits : |e| < 2 ^ w.bits) :
    ∃ factor, PolyImpl.signedFactor w q e = .ok factor ∧ (factor : ZMod q) = e := by
  have pos := ring.pos
  have word := ring.word
  obtain ⟨n, hn⟩ : ∃ n : ℕ, |e| = n := ⟨|e|.toNat, by rw [Int.toNat_of_nonneg (abs_nonneg e)]⟩
  have small : n < 2 ^ w.bits := by
    rw [hn] at fits
    exact_mod_cast fits
  have magnitude : (|e| % 2 ^ w.bits).toNat = n := by
    rw [Int.emod_eq_of_lt (abs_nonneg e) fits, hn, Int.toNat_natCast]
  obtain ⟨r, run, le, same⟩ : ∃ r, PolyImpl.signedFactor w q e = .ok (if e < 0 then sub w q r else r) ∧ r ≤ q ∧
      (r : ZMod q) = n := by
    simp only [PolyImpl.signedFactor, magnitude]
    by_cases large : n > q
    · refine ⟨n % q, ?_, (Nat.mod_lt _ pos).le, ZMod.natCast_mod n q⟩
      rw [if_pos large, WordVector.modWord, if_neg pos.ne']
      rfl
    · refine ⟨n, ?_, by omega, rfl⟩
      rw [if_neg large]
      rfl
  refine ⟨if e < 0 then sub w q r else r, run, ?_⟩
  split
  · rename_i negative
    rw [sub_of_le le (by omega), Nat.cast_sub le, ZMod.natCast_self, same, zero_sub]
    rw [abs_of_neg negative] at hn
    rw [show e = -(n : ℤ) by omega, Int.cast_neg, Int.cast_natCast]
  · rename_i nonneg
    rw [abs_of_nonneg (by omega)] at hn
    rw [same, hn, Int.cast_natCast]

theorem timesSigned_gives (half : (rho : ZMod q) ^ 2 ^ L = -1) {e : ℤ} (fits : |e| < 2 ^ w.bits) :
    Gives psi rho format (const (e : ZMod q) * f) ((polyOf q L psi format x).timesSigned w e) := by
  obtain ⟨factor, computed, value⟩ := signedFactor_eq ring fits
  have stored := setValues_gives (x := x) ring (product_represents ring repF half factor)
  have product := WordVector.modMulScalar_eq (w := w) (a := ⟨x, q⟩) ring.pos factor
  rw [value] at stored
  simp only [PolyImpl.timesSigned, polyOf, ringParams, PolyImpl.getValues, computed]
  dsimp only [bind, Except.bind]
  rw [product]
  exact stored

omit repF in
/-- The scalar goes to every entry of the evaluations. -/
theorem shifted_represents (repF : Represents rho .evaluation f x) (s : ℕ) :
    Represents rho .evaluation (f + const (s : ZMod q)) (x.map fun a => modAddFast w a (s % q) q) := by
  have word := ring.word
  have below : s % q < q := Nat.mod_lt _ ring.pos
  refine ⟨repF.shows.map fun i a ha value => ?_, ?_⟩
  · rw [modAddFast_eq (repF.lt a ha) below word, ZMod.natCast_mod, Nat.cast_add, ZMod.natCast_mod, value]
    exact (slot_add_const _ _).symm
  · intro b hb
    obtain ⟨a, ha, rfl⟩ := List.mem_map.mp hb
    exact modAddFast_lt (repF.lt a ha) below (by omega)

omit repF in
/-- The scalar goes to the first of the coefficients. -/
theorem firstShifted_represents (repF : Represents rho .coefficient f x) (s : ℕ) :
    Represents rho .coefficient (f + const (s : ZMod q)) (x.set 0 (modAdd w (x.getD 0 0) s q)) := by
  have word := ring.word
  have length := repF.shows.length
  refine ⟨⟨by rw [List.length_set, length], fun i => ?_⟩, ?_⟩
  · have inside : i.val < x.length := by rw [length]; exact i.2
    have sum : view rho .coefficient (f + const (s : ZMod q)) i = view rho .coefficient f i + if i.val = 0 then (s : ZMod q) else 0 :=
      congrArg (f.coeff i + ·) (coeff_const _ i)
    rw [List.getD_eq_getElem _ _ (by rw [List.length_set]; exact inside), sum]
    by_cases first : i.val = 0
    · have here := repF.shows.residues i
      rw [first] at here
      simp only [first, List.getElem_set_self, if_true]
      rw [modAdd_eq ring.pos word, ZMod.natCast_mod, Nat.cast_add, here]
    · rw [List.getElem_set_ne (fun same => first same.symm), shows_getElem repF.shows i inside, if_neg first, add_zero]
  · intro b hb
    rcases List.mem_or_eq_of_mem_set hb with hb | rfl
    · exact repF.lt b hb
    · rw [modAdd_eq ring.pos word]
      exact Nat.mod_lt _ ring.pos

theorem plusScalar_gives (s : ℕ) :
    Gives psi rho format (f + const (s : ZMod q)) ((polyOf q L psi format x).plusScalar w s) := by
  cases format with
  | evaluation =>
    have stored := setValues_gives (x := x) ring (shifted_represents ring repF s)
    have sum := WordVector.modAddScalar_eq (w := w) (a := ⟨x, q⟩) ring.pos s
    simp only [PolyImpl.plusScalar, polyOf, PolyImpl.getValues, reduceCtorEq, if_false]
    dsimp only [bind, Except.bind]
    rw [sum]
    exact stored
  | coefficient =>
    have stored := setValues_gives (x := x) ring (firstShifted_represents ring repF s)
    have inside : 0 < x.length := by
      rw [repF.shows.length]
      positivity
    have sum : WordVector.modAddAtIndex w ⟨x, q⟩ 0 s = .ok ⟨x.set 0 (modAdd w (x.getD 0 0) s q), q⟩ := by
      rw [WordVector.modAddAtIndex, List.getElem?_eq_getElem inside, List.getD_eq_getElem _ _ inside]
      exact if_neg ring.pos.ne'
    simp only [PolyImpl.plusScalar, polyOf, PolyImpl.getValues, if_true]
    dsimp only [bind, Except.bind]
    rw [sum]
    exact stored

omit repF in
/-- Only among evaluations does `Minus` subtract a scalar. -/
theorem minusScalar_gives (repF : Represents rho .evaluation f x) (s : ℕ) :
    Gives psi rho .evaluation (f - const (s : ZMod q)) ((polyOf q L psi .evaluation x).minusScalar w s) := by
  have word := ring.word
  have below : s % q < q := Nat.mod_lt _ ring.pos
  have rep : Represents rho .evaluation (f - const (s : ZMod q)) (x.map fun a => modSubFast w a (s % q) q) := by
    refine ⟨repF.shows.map fun i a ha value => ?_, ?_⟩
    · rw [modSubFast_eq (repF.lt a ha) below (by omega), ZMod.natCast_mod, Nat.cast_sub (by omega), Nat.cast_add,
        ZMod.natCast_self, add_zero, ZMod.natCast_mod, value, view_sub]
      exact congrArg _ (NativePoly.slot_const (rho : ZMod q) _ i).symm
    · intro b hb
      obtain ⟨a, ha, rfl⟩ := List.mem_map.mp hb
      exact modSubFast_lt (repF.lt a ha) below (by omega)
  have stored := setValues_gives (x := x) ring rep
  have difference := WordVector.modSubScalar_eq (w := w) (a := ⟨x, q⟩) ring.pos s
  simp only [PolyImpl.minusScalar, polyOf, PolyImpl.getValues]
  dsimp only [bind, Except.bind]
  rw [difference]
  exact stored

end Entrywise

end MultiKeyFHE
