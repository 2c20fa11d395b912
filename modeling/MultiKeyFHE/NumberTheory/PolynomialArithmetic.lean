import MultiKeyFHE.Library.Schoolbook
import MultiKeyFHE.Native.FastProducts
import MultiKeyFHE.Native.WordVector

/-!
# Schoolbook products and remainders of vectors

`PolynomialMultiplication` and `PolyMod` of `nbtheory-impl.h`. Both form the product of two entries in one word and reduce
what the word has kept of it.
-/

namespace MultiKeyFHE.NbTheory
open NativeInteger InPlace Schoolbook Polynomial

section Model
variable (w : NativeSize)

/-- The lengths are words of 32 bits. -/
def polynomialMultiplication (a b : WordVector) : Except Fault WordVector := do
  let degreeResultant := (a.values.length + b.values.length + 2 ^ 32 - 1) % 2 ^ 32
  let values ← accumulate .outOfRange (fun c x y => .ok (modAdd w c (mul w x y) a.modulus)) a.values b.values
    (List.replicate degreeResultant 0)
  return ⟨values, a.modulus⟩

/-- The divisor is neither empty nor longer than the dividend. -/
def polyMod (dividend divisor : WordVector) (modulus : ℕ) : Except Fault WordVector := do
  let mu ← computeMuChecked w modulus
  let runs := dividend.values.length - divisor.values.length + 1
  let runningDividend ← (List.range runs).foldlM
    (shiftRun .outOfRange (fun x d divConst => .ok (modSubMu w x (mul w d divConst) modulus mu)) divisor.values) dividend.values
  let values ← (List.range (divisor.values.length - 1)).mapM fun i => load .outOfRange runningDividend (runs + i)
  return ⟨values, modulus⟩

end Model

/-! ### Products and remainders modulo a number -/

/-- The coefficients are those of the product, for all vectors of these lengths with entries below the modulus. -/
def MultiplicationRight (w : NativeSize) (q lengthA lengthB : ℕ) : Prop :=
  ∀ a b : List ℕ, a.length = lengthA → b.length = lengthB → (∀ x ∈ a, x < q) → (∀ y ∈ b, y < q) →
    ∃ c, polynomialMultiplication w ⟨a, q⟩ ⟨b, q⟩ = .ok ⟨c, q⟩ ∧ lengthA + lengthB ≤ c.length + 1 ∧
      ∀ k, c.getD k 0 = (∑ p ∈ Finset.HasAntidiagonal.antidiagonal k, a.getD p.1 0 * b.getD p.2 0) % q

/-- A list of residues as a polynomial. -/
noncomputable def residuePoly (q : ℕ) (v : List ℕ) : (ZMod q)[X] := poly (fun x : ℕ => (x : ZMod q)) v

/-- The result is the remainder, for all dividends and all monic divisors of these lengths with entries below the
modulus. -/
def PolyModRight (w : NativeSize) (q lengthA lengthB : ℕ) : Prop :=
  ∀ a b : List ℕ, a.length = lengthA → b.length = lengthB → (∀ x ∈ a, x < q) → (∀ y ∈ b, y < q) → b.getLast? = some 1 →
    ∃ r, polyMod w ⟨a, q⟩ ⟨b, q⟩ q = .ok ⟨r, q⟩ ∧ r.length + 1 = lengthB ∧ (∀ x ∈ r, x < q) ∧
      residuePoly q r = residuePoly q a %ₘ residuePoly q b

/-- No product of two residues leaves a word, or what leaves it is a multiple of the modulus. -/
def PlainProducts (w : NativeSize) (q : ℕ) : Prop := (q - 1) ^ 2 < 2 ^ w.bits ∨ q ∣ 2 ^ w.bits

instance (w : NativeSize) (q : ℕ) : Decidable (PlainProducts w q) := inferInstanceAs (Decidable (_ ∨ _))

variable {w : NativeSize} {q : ℕ}

/-! ### Products in one word -/

theorem mul_mod (plain : PlainProducts w q) {x y : ℕ} (hx : x < q) (hy : y < q) : mul w x y % q = x * y % q := by
  rcases plain with small | divides
  · have product : x * y ≤ (q - 1) * (q - 1) := Nat.mul_le_mul (by omega) (by omega)
    rw [← pow_two] at product
    rw [mul, wrap_of_lt (by omega)]
  · exact Nat.mod_mod_of_dvd _ divides

/-- The smallest product with `q - 1` that leaves the word loses exactly one `2 ^ bits`. -/
theorem exists_lost (word : q < 2 ^ w.bits) (lossy : ¬ PlainProducts w q) :
    ∃ x y, x < q ∧ y < q ∧ mul w x y < q ∧ mul w x y % q ≠ x * y % q := by
  obtain ⟨large, other⟩ := not_or.mp lossy
  have positive : 0 < q - 1 := by
    by_contra none
    rw [show q - 1 = 0 by omega] at large
    exact large (by positivity)
  obtain ⟨B, hB⟩ : ∃ B, B = 2 ^ w.bits := ⟨_, rfl⟩
  rw [← hB] at word large other
  have quotient := Nat.div_add_mod (B + (q - 1) - 1) (q - 1)
  have remainder := Nat.mod_lt (B + (q - 1) - 1) positive
  have le : (B + (q - 1) - 1) / (q - 1) ≤ q - 1 := by
    rw [← Nat.lt_succ_iff, Nat.div_lt_iff_lt_mul positive, Nat.succ_mul, ← pow_two]
    omega
  obtain ⟨y, hy⟩ : ∃ y, y = (B + (q - 1) - 1) / (q - 1) := ⟨_, rfl⟩
  rw [← hy] at quotient le
  have kept : mul w (q - 1) y = (q - 1) * y - B := by
    rw [mul, wrap, ← hB, Nat.mod_eq_sub_mod (by omega), Nat.mod_eq_of_lt (by omega)]
  refine ⟨q - 1, y, by omega, by omega, by rw [kept]; omega, fun same => other ?_⟩
  rw [kept] at same
  have divides := (Nat.modEq_iff_dvd' (Nat.sub_le _ _)).mp same
  rwa [Nat.sub_sub_self (by omega)] at divides

/-! ### The product -/

section Product
variable (pos : 0 < q) (double : 2 * q ≤ 2 ^ w.bits) {a b : List ℕ}
include pos double

theorem multiplication_step (c x y : ℕ) :
    modAdd w c (mul w x y) q < q ∧ ((modAdd w c (mul w x y) q : ℕ) : ZMod q) = c + (mul w x y : ℕ) := by
  rw [modAdd_eq pos double]
  exact ⟨Nat.mod_lt _ pos, by rw [ZMod.natCast_mod]; push_cast; rfl⟩

/-- The coefficients are sums of the words that the products leave. -/
theorem polynomialMultiplication_ok (ha : ∀ x ∈ a, x < q) (hb : ∀ y ∈ b, y < q) (wordA : a.length < 2 ^ 32)
    (wordB : b.length < 2 ^ 32) (short : a.length = 0 ∨ b.length = 0 ∨ a.length + b.length ≤ 2 ^ 32) :
    ∃ c, polynomialMultiplication w ⟨a, q⟩ ⟨b, q⟩ = .ok ⟨c, q⟩ ∧ a.length + b.length ≤ c.length + 1 ∧
      ∀ k, c.getD k 0 = (∑ p ∈ Finset.HasAntidiagonal.antidiagonal k, mul w (a.getD p.1 0) (b.getD p.2 0)) % q := by
  obtain ⟨n, hn⟩ : ∃ n, n = (a.length + b.length + 2 ^ 32 - 1) % 2 ^ 32 := ⟨_, rfl⟩
  have room : a.length + b.length ≤ n + 1 := by omega
  have zeros : ∀ c ∈ List.replicate n 0, c < q := fun c hc => List.eq_of_mem_replicate hc ▸ pos
  obtain ⟨c, run, sums⟩ := (accumulate_ends Fault.outOfRange (E := fun _ => False) (R := fun c : ℕ => (c : ZMod q))
    (T := fun x y => ((mul w x y : ℕ) : ZMod q)) (fun c x y _ _ _ => Run.Ends.ok (multiplication_step pos double c x y))
    ha hb zeros (by simpa using room)).returns
  refine ⟨c, ?_, by rw [sums.length, List.length_replicate]; exact room, fun k => ?_⟩
  · unfold polynomialMultiplication
    simp only [← hn, run]
    rfl
  · have value := sums.value k
    rw [sum_pairs (T := fun x y => ((mul w x y : ℕ) : ZMod q)) (by simp [mul, wrap]) (by simp [mul, wrap]),
      getD_zeros, Nat.cast_zero, zero_add] at value
    have below : c.getD k 0 < q := by
      rcases Nat.lt_or_ge k c.length with inside | outside
      · exact sums.good _ (getD_mem inside)
      · rw [List.getD_eq_default _ _ outside]
        exact pos
    rw [← Nat.mod_eq_of_lt below]
    refine (ZMod.natCast_eq_natCast_iff _ _ q).mp ?_
    rw [value, Nat.cast_sum]

omit pos double in
/-- The length of the result is a word of 32 bits. -/
theorem polynomialMultiplication_long {c : WordVector} (run : polynomialMultiplication w ⟨a, q⟩ ⟨b, q⟩ = .ok c)
    (wordA : a.length < 2 ^ 32) (wordB : b.length < 2 ^ 32) :
    a.length = 0 ∨ b.length = 0 ∨ a.length + b.length ≤ 2 ^ 32 := by
  unfold polynomialMultiplication at run
  obtain ⟨values, loop, -⟩ := Run.bind_ok run
  by_contra long
  have room := accumulate_room loop (show 0 < a.length by omega) (show 0 < b.length by omega)
  rw [List.length_replicate] at room
  dsimp only at room
  omega

omit pos in
theorem multiplicationRight_iff (positive : 0 < q) {lengthA lengthB : ℕ} (wordA : lengthA < 2 ^ 32) (wordB : lengthB < 2 ^ 32) :
    MultiplicationRight w q lengthA lengthB ↔
      lengthA = 0 ∨ lengthB = 0 ∨ lengthA + lengthB ≤ 2 ^ 32 ∧ PlainProducts w q := by
  constructor
  · intro right
    by_contra wrong
    have zeros : ∀ n, ∀ x ∈ List.replicate n 0, x < q := fun n x hx => by rw [List.eq_of_mem_replicate hx]; exact positive
    obtain ⟨c, run, -, -⟩ := right (List.replicate lengthA 0) (List.replicate lengthB 0) (by simp) (by simp) (zeros _)
      (zeros _)
    have short := polynomialMultiplication_long run (by simpa using wordA) (by simpa using wordB)
    simp only [List.length_replicate] at short
    have lossy : ¬ PlainProducts w q := by tauto
    obtain ⟨x, y, hx, hy, -, differ⟩ := exists_lost (w := w) (by omega) lossy
    obtain ⟨n, rfl⟩ : ∃ n, lengthA = n + 1 := ⟨lengthA - 1, by omega⟩
    obtain ⟨k, rfl⟩ : ∃ k, lengthB = k + 1 := ⟨lengthB - 1, by omega⟩
    have first : ∀ n x, x < q → ∀ z ∈ x :: List.replicate n 0, z < q := by
      intro n x hx z hz
      rcases List.mem_cons.mp hz with rfl | hz
      · exact hx
      · exact zeros n z hz
    obtain ⟨c, run, -, value⟩ := right (x :: List.replicate n 0) (y :: List.replicate k 0) (by simp) (by simp)
      (first n x hx) (first k y hy)
    obtain ⟨c', run', -, value'⟩ := polynomialMultiplication_ok positive double (first n x hx) (first k y hy)
      (by simpa using wordA) (by simpa using wordB) (by simpa using short)
    rw [run] at run'
    obtain rfl : c = c' := congrArg WordVector.values (Except.ok.inj run')
    have both := (value' 0).symm.trans (value 0)
    simp only [Finset.Nat.antidiagonal_zero, Finset.sum_singleton, List.getD_cons_zero] at both
    exact differ both
  · intro admitted a b hla hlb ha hb
    subst hla hlb
    obtain ⟨c, run, length, value⟩ := polynomialMultiplication_ok positive double ha hb wordA wordB (by tauto)
    refine ⟨c, run, length, fun k => ?_⟩
    rw [value, Finset.sum_nat_mod,
      Finset.sum_nat_mod (Finset.HasAntidiagonal.antidiagonal k) q fun p => a.getD p.1 0 * b.getD p.2 0]
    congr 1
    refine Finset.sum_congr rfl fun p _ => ?_
    have below : ∀ {v : List ℕ} {k : ℕ}, (∀ x ∈ v, x < q) → v.getD k 0 < q := by
      intro v k hv
      rcases Nat.lt_or_ge k v.length with inside | outside
      · exact hv _ (getD_mem inside)
      · rw [List.getD_eq_default _ _ outside]
        exact positive
    rcases admitted with none | none | ⟨-, plain⟩
    · rw [List.length_eq_zero_iff.mp none]
      simp [mul, wrap]
    · rw [List.length_eq_zero_iff.mp none]
      simp [mul, wrap]
    · exact mul_mod plain (below ha) (below hb)

end Product

/-! ### The remainder -/

theorem mapM_load {n : ℕ} {v : List ℕ} {k : ℕ} (length : v.length = k + n) :
    ((List.range n).mapM fun i => load Fault.outOfRange v (k + i)) = .ok (v.drop k) := by
  rw [Run.mapM_eq_map (g := fun i => v.getD (k + i) 0)]
  · refine congrArg Except.ok (List.ext_getElem (by simp; omega) fun i h h' => ?_)
    simp only [List.length_map, List.length_range] at h
    rw [List.getElem_map, List.getElem_range, List.getElem_drop, List.getD_eq_getElem _ _ (by omega)]
  · intro i hi
    have inside : k + i < v.length := by
      have := List.mem_range.mp hi
      omega
    rw [load_ok _ inside, List.getD_eq_getElem _ _ inside]

section Remainder
variable {a b : List ℕ}

/-- One run of the loop on words. -/
abbrev modRun (w : NativeSize) (q : ℕ) (b cells : List ℕ) (i : ℕ) : Except Fault (List ℕ) :=
  shiftRun .outOfRange (fun x d c => .ok (modSubMu w x (mul w d c) q (computeMu w q))) b cells i

theorem polyMod_of_runs (pos : 0 < q) (nonempty : 0 < b.length) (le : b.length ≤ a.length) {cells : List ℕ}
    (run : (List.range (a.length - b.length + 1)).foldlM (modRun w q b) a = .ok cells) (length : cells.length = a.length) :
    polyMod w ⟨a, q⟩ ⟨b, q⟩ q = .ok ⟨cells.drop (a.length - b.length + 1), q⟩ := by
  have mu : computeMuChecked w q = .ok (computeMu w q) := if_neg (by omega)
  unfold polyMod
  rw [mu]
  dsimp only [bind, Except.bind]
  rw [run]
  dsimp only
  rw [mapM_load (by omega)]
  rfl

theorem modRuns_ok (nonempty : 0 < a.length) (runs : ℕ) :
    ∃ cells, (List.range runs).foldlM (modRun w q b) a = .ok cells ∧ cells.length = a.length := by
  refine (Run.foldlM_range_ends (fun _ (cells : List ℕ) => cells.length = a.length) (E := fun _ => False) rfl ?_).returns
  intro i _ cells length
  refine (shiftRun_ends _ _ _ (Q := fun _ _ => True) (by omega) fun p _ _ => ?_).mono fun out shifted => shifted.length.trans length
  unfold moved
  split <;> exact Run.Ends.ok trivial

theorem monic_iff_last : b.getLast? = some 1 ↔ 0 < b.length ∧ b.getD (b.length - 1) 0 = 1 := by
  rw [List.getLast?_eq_getElem?, List.getD_eq_getElem?_getD]
  constructor
  · intro last
    obtain ⟨inside, -⟩ := List.getElem?_eq_some_iff.mp last
    exact ⟨by omega, by rw [last]; rfl⟩
  · rintro ⟨nonempty, one⟩
    rw [List.getElem?_eq_getElem (show b.length - 1 < b.length by omega)] at one ⊢
    exact congrArg some one

/-- A run subtracts the products of residues, when the modulus is one for which words do. -/
theorem modSubMu_step (two : 2 ≤ q) (admitted : ¬ modulusTooLarge w q) (plain : PlainProducts w q)
    (other : q ≠ 2 ^ (w.maxModulusSize - 1)) {x d c : ℕ} (hx : x < q) (hd : d < q) (hc : c < q) :
    modSubMu w x (mul w d c) q (computeMu w q) < q ∧
      ((modSubMu w x (mul w d c) q (computeMu w q) : ℕ) : ZMod q) = x - d * c := by
  have room := lt_of_not_tooLarge admitted
  have word : mul w d c < 2 ^ w.bits := Nat.mod_lt _ (by positivity)
  have small : q < 2 ^ (w.bits - 4) := by
    rw [show w.bits - 4 = w.maxModulusSize by have := w.bits_eq; omega]
    exact Nat.size_le.mp (Nat.not_lt.mp admitted)
  have short : mul w d c < 2 ^ (2 * q.size) := (Nat.mod_le _ _).trans_lt (mul_lt_size hd hc)
  have left : reduceMu w x q (computeMu w q) = x := if_neg (by omega)
  rw [modSubMu, left, reduceMu_eq two word (sharp_of_lt two word small other short), mul_mod plain hd hc]
  have below := Nat.mod_lt (d * c) (show 0 < q by omega)
  refine ⟨modSubFast_lt hx below (by omega), ?_⟩
  have cast := (ZMod.intCast_eq_intCast_iff _ _ q).mpr (modSubFast_cast (w := w) hx below (by omega))
  push_cast at cast
  rw [cast]

theorem polyModRight_of_plain (two : 2 ≤ q) (admitted : ¬ modulusTooLarge w q) (plain : PlainProducts w q)
    (other : q ≠ 2 ^ (w.maxModulusSize - 1)) {lengthA lengthB : ℕ} (le : lengthB ≤ lengthA) :
    PolyModRight w q lengthA lengthB := by
  rintro a b rfl rfl ha hb monic
  obtain ⟨nonempty, last⟩ := monic_iff_last.mp monic
  have nontrivial : Nontrivial (ZMod q) := ZMod.nontrivial_iff.mpr (by omega)
  obtain ⟨unit, degree⟩ := degree_poly_of_monic (R := fun x : ℕ => (x : ZMod q)) (by simp) nonempty (by rw [last]; simp)
  obtain ⟨cells, run, length, good, quotient, split⟩ := (Run.foldlM_range_ends (fun i (cells : List ℕ) =>
    cells.length = a.length ∧ (∀ c ∈ cells, c < q) ∧
      ∃ Q, residuePoly q a = residuePoly q b * Q + residuePoly q (cells.drop i))
    (f := modRun w q b) (E := fun _ => False) (n := a.length - b.length + 1) (s := a)
    ⟨rfl, ha, 0, by simp⟩ (by
      rintro i hi cells ⟨length, good, Q, split⟩
      refine (shiftRun_reduced (R := fun x : ℕ => (x : ZMod q))
        (fun x d c hx hd hc => Run.Ends.ok (modSubMu_step two admitted plain other hx hd hc))
        (by simp) hb good nonempty (by rw [last]; simp) (by omega)).mono fun out reduced =>
          ⟨reduced.length.trans length, reduced.good, Q + C ((cells.getD (cells.length - 1) 0 : ℕ) : ZMod q) *
            X ^ (cells.length - i - b.length), ?_⟩
      rw [split, residuePoly, residuePoly, residuePoly, reduced.value]
      ring)).returns
  refine ⟨_, polyMod_of_runs (by omega) nonempty le run length, by rw [List.length_drop]; omega,
    fun x hx => good x (List.mem_of_mem_drop hx), ?_⟩
  refine ((div_modByMonic_unique quotient _ unit ⟨?_, ?_⟩).2).symm
  · rw [split, add_comm]
    rfl
  · have below := degree_poly_lt (R := fun x : ℕ => (x : ZMod q)) (cells.drop (a.length - b.length + 1))
    rw [List.length_drop, show cells.length - (a.length - b.length + 1) = b.length - 1 by omega] at below
    exact below.trans_eq degree.symm

/-! ### A pair of residues with a wrong product -/

/-- What a run gets when it subtracts `x * c` from zero is not the residue. -/
def WrongProduct (w : NativeSize) (q x c : ℕ) : Prop :=
  ¬ (modSubMu w 0 (mul w x c) q (computeMu w q) < q ∧
    ((modSubMu w 0 (mul w x c) q (computeMu w q) : ℕ) : ZMod q) = -(x * c))

theorem exists_wrongProduct (two : 2 ≤ q) (admitted : ¬ modulusTooLarge w q)
    (lossy : ¬ (PlainProducts w q ∧ q ≠ 2 ^ (w.maxModulusSize - 1))) : ∃ x c, x < q ∧ c < q ∧ WrongProduct w q x c := by
  have room := lt_of_not_tooLarge admitted
  by_cases largest : q = 2 ^ (w.maxModulusSize - 1)
  · -- The constant `mu` is zero, and one subtraction does not reduce three times the modulus.
    refine ⟨2 ^ (w.maxModulusSize - 2) + 1, 6, ?_, ?_, fun right => ?_⟩
    · rw [largest]
      cases w <;> decide
    · rw [largest]
      cases w <;> decide
    · have below := right.1
      rw [largest] at below
      cases w <;> revert below <;> decide
  · obtain ⟨x, c, hx, hc, below, differ⟩ := exists_lost (w := w) (by omega) (fun plain => lossy ⟨plain, largest⟩)
    refine ⟨x, c, hx, hc, fun right => differ ?_⟩
    have left : reduceMu w 0 q (computeMu w q) = 0 := if_neg (by omega)
    have kept : reduceMu w (mul w x c) q (computeMu w q) = mul w x c := if_neg (by omega)
    have value := right.2
    rw [modSubMu, left, kept] at value
    have cast := (ZMod.intCast_eq_intCast_iff _ _ q).mpr (modSubFast_cast (w := w) (show 0 < q by omega) below (by omega))
    push_cast at cast
    rw [value, zero_sub, neg_inj] at cast
    refine (ZMod.natCast_eq_natCast_iff _ _ q).mp ?_
    rw [← cast]
    push_cast
    rfl

theorem getD_single (n x e k : ℕ) : (List.replicate n 0 ++ x :: List.replicate e 0).getD k 0 = if k = n then x else 0 := by
  rcases Nat.lt_trichotomy k n with before | rfl | after
  · rw [List.getD_append _ _ _ _ (by simpa using before), getD_zeros, if_neg (by omega)]
  · rw [List.getD_append_right _ _ _ _ (by simp), if_pos rfl]
    simp
  · rw [List.getD_append_right _ _ _ _ (by simpa using after.le), if_neg (by omega), List.length_replicate,
      show k - n = k - n - 1 + 1 by omega, List.getD_cons_succ, getD_zeros]

theorem getD_pair (n x k : ℕ) :
    (List.replicate n 0 ++ [x, 1]).getD k 0 = if k = n then x else if k = n + 1 then 1 else 0 := by
  rcases Nat.lt_or_ge k (n + 1) with before | after
  · have short : (List.replicate n 0 ++ [x, 1]).getD k 0 = (List.replicate n 0 ++ [x]).getD k 0 := by
      rw [show List.replicate n 0 ++ [x, 1] = (List.replicate n 0 ++ [x]) ++ [1] by simp,
        List.getD_append _ _ _ _ (by simpa using before)]
    have single := getD_single n x 0 k
    rw [List.replicate_zero] at single
    rw [short, single, if_neg (show ¬ k = n + 1 by omega)]
  · rw [show List.replicate n 0 ++ [x, 1] = (List.replicate n 0 ++ [x]) ++ [1] by simp,
      List.getD_append_right _ _ _ _ (by simpa using after), if_neg (by omega)]
    rcases Nat.eq_or_lt_of_le after with same | later
    · rw [← same]
      simp
    · rw [if_neg (by omega)]
      exact List.getD_eq_default _ _ (by simp; omega)

/-- As long as the leading coefficient is zero, the cells only move. -/
theorem shifting_ok {n e x c : ℕ} (two : 2 ≤ q) (hc : c < q) {runs : ℕ} (few : runs ≤ e) :
    ∃ cells, (List.range runs).foldlM (modRun w q (List.replicate n 0 ++ [x, 1]))
        (List.replicate (n + 1) 0 ++ c :: List.replicate e 0) = .ok cells ∧ cells.length = n + 2 + e ∧
      ∀ k, cells.getD (runs + k) 0 = if k = n + 1 then c else 0 := by
  refine (Run.foldlM_range_ends (E := fun _ => False) (fun i (cells : List ℕ) => cells.length = n + 2 + e ∧
    ∀ k, cells.getD (i + k) 0 = if k = n + 1 then c else 0) ⟨by simp; omega, fun k => ?_⟩ ?_).returns
  · rw [zero_add]
    exact getD_single (n + 1) c e k
  · rintro i hi cells ⟨length, value⟩
    have top : cells.getD (cells.length - 1) 0 = 0 := by
      rw [show cells.length - 1 = i + (n + 1 + e - i) by omega, value, if_neg (by omega)]
    refine (shiftRun_ends _ _ _ (Q := fun p y => y = cells.getD (p - 1) 0) (by omega) fun p above inside => ?_).mono
      fun out shifted => ⟨shifted.length.trans length, fun k => ?_⟩
    · have small : cells.getD (p - 1) 0 < q := by
        rw [show p - 1 = i + (p - 1 - i) by omega, value]
        split <;> omega
      unfold moved
      split
      · rw [top]
        refine Run.Ends.ok ?_
        have nothing : reduceMu w 0 q (computeMu w q) = 0 := if_neg (by omega)
        have kept : reduceMu w (cells.getD (p - 1) 0) q (computeMu w q) = cells.getD (p - 1) 0 := if_neg (by omega)
        rw [mul, mul_zero, wrap, Nat.zero_mod, modSubMu, nothing, kept, modSubFast, if_neg (by omega), Nat.sub_zero]
      · exact Run.Ends.ok rfl
    · rcases Nat.lt_or_ge (i + 1 + k) cells.length with inside | outside
      · rw [shifted.above _ (by omega) inside, show i + 1 + k - 1 = i + k by omega, value]
      · rw [List.getD_eq_default _ _ (by rw [shifted.length]; exact outside), if_neg (by omega)]

/-- The last run of that division takes `c` times the divisor off. -/
theorem lastRun_ok {n e x c : ℕ} (two : 2 ≤ q) (hc : c < q) :
    ∃ cells, (List.range (e + 1)).foldlM (modRun w q (List.replicate n 0 ++ [x, 1]))
        (List.replicate (n + 1) 0 ++ c :: List.replicate e 0) = .ok cells ∧ cells.length = n + 2 + e ∧
      cells.getD (e + 1 + n) 0 = modSubMu w 0 (mul w x c) q (computeMu w q) := by
  obtain ⟨cells, run, length, value⟩ := shifting_ok (w := w) (n := n) (x := x) two hc (le_refl e)
  obtain ⟨out, last, shifted⟩ := (shiftRun_ends Fault.outOfRange
    (fun x d c => .ok (modSubMu w x (mul w d c) q (computeMu w q))) (List.replicate n 0 ++ [x, 1]) (i := e) (E := fun _ => False)
    (Q := fun p y => p = e + 1 + n → y = modSubMu w 0 (mul w x c) q (computeMu w q))
    (show 0 < cells.length by omega) (by
      intro p above inside
      by_cases here : p = e + 1 + n
      · have below : cells.getD (p - 1) 0 = 0 := by
          rw [here, show e + 1 + n - 1 = e + n by omega, value, if_neg (by omega)]
        have top : cells.getD (cells.length - 1) 0 = c := by
          rw [show cells.length - 1 = e + (n + 1) by omega, value, if_pos rfl]
        have place : p + (List.replicate n 0 ++ [x, 1]).length - 1 - cells.length = n := by
          simp
          omega
        rw [moved, if_pos (by simp; omega), below, top, place, getD_pair, if_pos rfl]
        exact Run.Ends.ok fun _ => rfl
      · unfold moved
        split <;> exact Run.Ends.ok fun same => absurd same here)).returns
  refine ⟨out, ?_, shifted.length.trans length, shifted.above _ (by omega) (by omega) rfl⟩
  rw [List.range_succ]
  exact Run.foldlM_append_ok run (Run.foldlM_cons_ok last rfl)

theorem coeff_remainder (two : 2 ≤ q) (n e x c : ℕ) :
    (residuePoly q (List.replicate (n + 1) 0 ++ c :: List.replicate e 0) %ₘ
      residuePoly q (List.replicate n 0 ++ [x, 1])).coeff n = -(x * c) := by
  have nontrivial : Nontrivial (ZMod q) := ZMod.nontrivial_iff.mpr (by omega)
  have dividend : residuePoly q (List.replicate (n + 1) 0 ++ c :: List.replicate e 0) = C (c : ZMod q) * X ^ (n + 1) := by
    ext k
    rw [residuePoly, coeff_poly (by simp), getD_single, coeff_C_mul, coeff_X_pow]
    split <;> simp
  have divisor : residuePoly q (List.replicate n 0 ++ [x, 1]) = X ^ (n + 1) + C (x : ZMod q) * X ^ n := by
    ext k
    rw [residuePoly, coeff_poly (by simp), getD_pair, coeff_add, coeff_C_mul, coeff_X_pow, coeff_X_pow]
    rcases Nat.lt_trichotomy k n with before | rfl | after
    · simp [show k ≠ n by omega, show k ≠ n + 1 by omega]
    · simp
    · simp [show k ≠ n by omega]
  obtain ⟨unit, degree⟩ := degree_poly_of_monic (R := fun x : ℕ => (x : ZMod q)) (by simp)
    (v := List.replicate n 0 ++ [x, 1]) (by simp) (by rw [getD_pair]; simp)
  have remainder := (div_modByMonic_unique (f := residuePoly q (List.replicate (n + 1) 0 ++ c :: List.replicate e 0))
    (C (c : ZMod q)) (C (-(x * c : ZMod q)) * X ^ n) unit ⟨?_, ?_⟩).2
  · rw [residuePoly] at remainder ⊢
    rw [residuePoly, remainder, coeff_C_mul, coeff_X_pow, if_pos rfl, mul_one]
  · change _ + residuePoly q (List.replicate n 0 ++ [x, 1]) * _ = _
    rw [dividend, divisor, C_neg, C_mul]
    ring
  · refine (degree_C_mul_X_pow_le _ _).trans_lt (degree.symm ▸ ?_)
    simp only [List.length_append, List.length_replicate, List.length_cons, List.length_nil]
    exact_mod_cast (show n < n + 2 - 1 by omega)

theorem not_polyModRight (two : 2 ≤ q) {x c : ℕ} (hx : x < q) (hc : c < q) (wrong : WrongProduct w q x c) (n e : ℕ) :
    ¬ PolyModRight w q (n + 2 + e) (n + 2) := by
  intro right
  have entries : ∀ y ∈ List.replicate (n + 1) 0 ++ c :: List.replicate e 0, y < q := by
    intro y hy
    simp only [List.mem_append, List.mem_replicate, List.mem_cons] at hy
    rcases hy with ⟨-, rfl⟩ | rfl | ⟨-, rfl⟩ <;> omega
  have entries' : ∀ y ∈ List.replicate n 0 ++ [x, 1], y < q := by
    intro y hy
    simp only [List.mem_append, List.mem_replicate, List.mem_cons, List.not_mem_nil, or_false] at hy
    rcases hy with ⟨-, rfl⟩ | rfl | rfl <;> omega
  obtain ⟨r, run, -, small, same⟩ := right _ _ (by simp; omega) (by simp) entries entries' (by simp)
  obtain ⟨cells, loop, length, value⟩ := lastRun_ok (w := w) (n := n) (e := e) (x := x) two hc
  have count : (List.replicate (n + 1) 0 ++ c :: List.replicate e 0).length - (List.replicate n 0 ++ [x, 1]).length + 1 =
      e + 1 := by
    simp
    omega
  have run' := polyMod_of_runs (w := w) (q := q) (a := List.replicate (n + 1) 0 ++ c :: List.replicate e 0)
    (b := List.replicate n 0 ++ [x, 1]) (by omega) (by simp) (by simp; omega) (by rw [count]; exact loop)
    (by rw [length]; simp; omega)
  rw [run, count] at run'
  obtain rfl : r = cells.drop (e + 1) := congrArg WordVector.values (Except.ok.inj run')
  have entry : (cells.drop (e + 1)).getD n 0 = modSubMu w 0 (mul w x c) q (computeMu w q) := by rw [getD_drop, value]
  refine wrong ⟨?_, ?_⟩
  · rw [← entry]
    exact small _ (getD_mem (by rw [List.length_drop]; omega))
  · have coefficient := congrArg (coeff · n) same
    rw [← coeff_remainder two n e x c, ← same, residuePoly, coeff_poly (by simp), entry]

theorem polyModRight_iff (pos : 0 < q) (admitted : ¬ modulusTooLarge w q) {lengthA lengthB : ℕ} (le : lengthB ≤ lengthA) :
    PolyModRight w q lengthA lengthB ↔ lengthB ≤ 1 ∨ PlainProducts w q ∧ q ≠ 2 ^ (w.maxModulusSize - 1) := by
  rcases Nat.eq_or_lt_of_le pos with one | two
  · -- There is no monic polynomial modulo one.
    refine iff_of_true ?_ (.inr ⟨.inl ?_, ?_⟩)
    · rintro a b rfl rfl ha hb monic
      have := hb 1 (List.mem_of_getLast? monic)
      omega
    · rw [← one]
      exact lt_of_lt_of_le (by norm_num) (Nat.one_le_two_pow (n := w.bits))
    · rw [← one]
      cases w <;> decide
  · constructor
    · intro right
      by_contra wrong
      obtain ⟨long, lossy⟩ := not_or.mp wrong
      obtain ⟨n, rfl⟩ : ∃ n, lengthB = n + 2 := ⟨lengthB - 2, by omega⟩
      obtain ⟨e, rfl⟩ : ∃ e, lengthA = n + 2 + e := ⟨lengthA - (n + 2), by omega⟩
      obtain ⟨x, c, hx, hc, pair⟩ := exists_wrongProduct two admitted lossy
      exact not_polyModRight two hx hc pair n e right
    · rintro (short | ⟨plain, other⟩)
      · -- A divisor without a lower coefficient is one, and leaves nothing.
        rintro a b rfl rfl ha hb monic
        obtain ⟨nonempty, last⟩ := monic_iff_last.mp monic
        obtain ⟨cells, run, length⟩ := modRuns_ok (w := w) (q := q) (b := b) (show 0 < a.length by omega)
          (a.length - b.length + 1)
        refine ⟨_, polyMod_of_runs pos nonempty le run length, by rw [List.length_drop]; omega, ?_, ?_⟩
        · rw [List.drop_of_length_le (by omega)]
          simp
        · obtain ⟨y, rfl⟩ := List.length_eq_one_iff.mp (show b.length = 1 by omega)
          obtain rfl : y = 1 := last
          have unit : residuePoly q [1] = 1 := by simp [residuePoly, poly]
          rw [List.drop_of_length_le (by omega), unit, modByMonic_one]
          rfl
      · exact polyModRight_of_plain two admitted plain other le

end Remainder

/-- Products of residues have to fit a word or to lose multiples of the modulus, and the largest power of two has no Barrett
constant. -/
theorem schoolbook_iff (pos : 0 < q) (admitted : ¬ modulusTooLarge w q) {lengthA lengthB dividend divisor : ℕ}
    (wordA : lengthA < 2 ^ 32) (wordB : lengthB < 2 ^ 32) (le : divisor ≤ dividend) :
    (MultiplicationRight w q lengthA lengthB ↔
      lengthA = 0 ∨ lengthB = 0 ∨ lengthA + lengthB ≤ 2 ^ 32 ∧ PlainProducts w q) ∧
    (PolyModRight w q dividend divisor ↔ divisor ≤ 1 ∨ PlainProducts w q ∧ q ≠ 2 ^ (w.maxModulusSize - 1)) := by
  have room := lt_of_not_tooLarge admitted
  exact ⟨multiplicationRight_iff (by omega) pos wordA wordB, polyModRight_iff pos admitted le⟩

theorem schoolbook_of_small_prime :
    (MultiplicationRight .w64 1073741789 16 16 ↔ 16 = 0 ∨ 16 = 0 ∨ 16 + 16 ≤ 2 ^ 32 ∧ PlainProducts .w64 1073741789) ∧
    (PolyModRight .w64 1073741789 31 9 ↔ 9 ≤ 1 ∨ PlainProducts .w64 1073741789 ∧ 1073741789 ≠ 2 ^ (60 - 1)) :=
  schoolbook_iff (by norm_num) (by decide) (by norm_num) (by norm_num) (by norm_num)

/-- The square of the largest residue modulo `2 ^ 32 + 15`, which is one. -/
theorem square_leaves_the_word :
    ¬ modulusTooLarge .w64 4294967311 ∧ 4294967310 * 4294967310 % 4294967311 = 1 ∧
    polynomialMultiplication .w64 ⟨[4294967310], 4294967311⟩ ⟨[4294967310], 4294967311⟩ =
      .ok ⟨[4294967087], 4294967311⟩ ∧
    polyMod .w64 ⟨[0, 4294967310], 4294967311⟩ ⟨[4294967310, 1], 4294967311⟩ 4294967311 = .ok ⟨[224], 4294967311⟩ ∧
    ¬ MultiplicationRight .w64 4294967311 1 1 ∧ ¬ PolyModRight .w64 4294967311 2 2 := by
  refine ⟨by decide, by decide, by decide +kernel, by decide +kernel, ?_, ?_⟩
  · rw [multiplicationRight_iff (by norm_num [NativeSize.bits]) (by norm_num) (by norm_num) (by norm_num)]
    decide
  · rw [polyModRight_iff (by norm_num) (by decide) (by norm_num)]
    decide

end MultiKeyFHE.NbTheory
