import MultiKeyFHE.Polynomial.FormatChange

/-!
# Sample extraction

`EvalBinGate` transposes every polynomial of the accumulator among evaluations, switches it to coefficients and takes
its values. Their inner product with the secrets is the constant coefficient of the phase. The modulus need not be
prime here: an odd one with a root of `X ^ N + 1` has tables and a transform as well.
-/

namespace MultiKeyFHE
open NativeInteger NumberTheoreticTransform InPlace Butterfly Negacyclic NegPoly

namespace PolyImpl
variable (w : NativeSize) (c : Compiler) (arbitrarySwitchFormat : PolyImpl → Except Fault PolyImpl)

/-- `SetFormat`. -/
def setFormat (a : PolyImpl) (format : Format) (cache : Cache) : Except Fault PolyImpl × Cache :=
  if a.format ≠ format then a.switchFormat w c arbitrarySwitchFormat cache else (.ok a, cache)

end PolyImpl

namespace BinFHEScheme
variable (w : NativeSize) (c : Compiler) (arbitrarySwitchFormat : PolyImpl → Except Fault PolyImpl)

/-- One pass of the loop over the accumulator. -/
def extract (acc : PolyImpl) (cache : Cache) : Except Fault WordVector × Cache :=
  match acc.transpose w with
  | .error fault => (.error fault, cache)
  | .ok acc =>
    let out := acc.setFormat w c arbitrarySwitchFormat .coefficient cache
    (out.1 >>= PolyImpl.getValues, out.2)

/-- The loop over the accumulator, which leaves `accExt`. -/
def extractAll : List PolyImpl → Cache → Except Fault (List WordVector) × Cache
  | [], cache => (.ok [], cache)
  | acc :: accVec, cache =>
    match extract w c arbitrarySwitchFormat acc cache with
    | (.error fault, cache) => (.error fault, cache)
    | (.ok accExt, cache) =>
      let out := extractAll accVec cache
      ((accExt :: ·) <$> out.1, out.2)

end BinFHEScheme

/-- An odd modulus that a vector can have, and a root of `X ^ N + 1`. The order is a word of 32 bits. -/
structure OddRing (w : NativeSize) (q L psi : ℕ) : Prop where
  odd : q % 2 = 1
  two_le : 2 ≤ q
  room : ¬ modulusTooLarge w q
  lt : psi < q
  half : (psi : ZMod q) ^ 2 ^ L = -1
  word : L + 1 < 32

namespace NumberTheoreticTransform

/-- The root whose tables a transform works with: that of the ledger, if it has tables of this order. -/
def Ledger.rootFor (t : Triple) (ledger : Ledger) : ℕ :=
  match ledger t.modulus with
  | some (cycloOrder, rootOfUnity) => if cycloOrder = t.cycloOrder then rootOfUnity else t.rootOfUnity
  | none => t.rootOfUnity

theorem Ledger.record_rootFor {t : Triple} (has : HasTables t.cycloOrder) (ledger : Ledger) :
    ledger.record t t.modulus = some (t.cycloOrder, ledger.rootFor t) := by
  unfold Ledger.record Ledger.rootFor
  cases found : ledger t.modulus with
  | none => simp [has]
  | some entry =>
    obtain ⟨order, root⟩ := entry
    by_cases same : order = t.cycloOrder
    · simp [same, found]
    · simp [has, same]

theorem Ledger.rootFor_record {t : Triple} (has : HasTables t.cycloOrder) (ledger : Ledger) :
    (ledger.record t).rootFor t = ledger.rootFor t := by
  have recorded := ledger.record_rootFor has
  conv_lhs => rw [Ledger.rootFor, recorded]
  simp

end NumberTheoreticTransform

/-- The transforms of this ring work with the tables of `rho`. -/
def WorksWith (w : NativeSize) (q L psi rho : ℕ) (cache : Cache) : Prop :=
  ∃ ledger, Mirrors w cache ledger ∧ ledger.rootFor ⟨psi, 2 ^ (L + 1), q⟩ = rho

theorem worksWith_empty {w : NativeSize} {q L psi : ℕ} : WorksWith w q L psi psi {} := ⟨_, mirrors_empty, rfl⟩

variable {w : NativeSize} {c : Compiler} (arbitrarySwitchFormat : PolyImpl → Except Fault PolyImpl) {q L psi rho : ℕ}
  {f : NativePoly (2 ^ L) q} {x : List ℕ}

namespace OddRing

theorem unit (ring : OddRing w q L psi) : psi.Coprime q := by
  rw [← ZMod.isUnit_iff_coprime]
  refine (isUnit_pow_iff (n := 2 ^ L) (by positivity)).mp ?_
  rw [ring.half]
  exact isUnit_one.neg

theorem guard (ring : OddRing w q L psi) : ¬ (psi = 1 ∨ psi = 0) := by
  have odd := ring.odd
  have two := ring.two_le
  have : Fact (1 < q) := ⟨two⟩
  have half := ring.half
  rintro (rfl | rfl)
  · rw [Nat.cast_one, one_pow] at half
    have sum : ((2 : ℕ) : ZMod q) = 0 := by
      rw [Nat.cast_two]
      linear_combination half
    have := Nat.le_of_dvd two_pos ((ZMod.natCast_eq_zero_iff _ _).mp sum)
    omega
  · rw [Nat.cast_zero, zero_pow (by positivity)] at half
    exact one_ne_zero (neg_eq_zero.mp half.symm)

theorem buildable (ring : OddRing w q L psi) : Buildable w ⟨psi, 2 ^ (L + 1), q⟩ := by
  have odd := ring.odd
  refine ⟨⟨ring.two_le, ring.room, ?_⟩, Nat.coprime_two_left.mpr (Nat.odd_iff.mpr odd), ring.unit, ⟨L, rfl⟩,
    Nat.pow_lt_pow_right (by norm_num) ring.word, ring.lt⟩
  intro power
  have even : q % 2 = 0 := by
    rw [show q = 2 ^ (w.maxModulusSize - 1) from power]
    exact Nat.mod_eq_zero_of_dvd (dvd_pow_self 2 (by cases w <;> decide))
  omega

end OddRing

/-! ### One polynomial -/

theorem odd_order (L : ℕ) : (2 ^ (L + 1) - 1) % 2 = 1 := by
  have pos : 0 < 2 ^ L := by positivity
  rw [pow_succ]
  omega

theorem transpose_represents (psi : ℕ) (root : OddRing w q L rho) (one : 1 ≤ L) (small : L ≤ 24) (rep : Represents rho .evaluation f x) :
    ∃ z, (polyOf q L psi .evaluation x).transpose w = .ok (polyOf q L psi .evaluation z) ∧
      Represents rho .evaluation (substPow (2 ^ (L + 1) - 1) f) z := by
  have word : 2 ^ (L + 1) - 1 < 2 ^ 32 := by
    have := Nat.pow_lt_pow_right (show 1 < 2 by norm_num) root.word
    omega
  obtain ⟨z, run, written⟩ := PolyImpl.permuteEvaluations_ok one small word rep.shows.length
  refine ⟨z, ?_, permuted_shows root.half rep (odd_order L) written⟩
  rw [PolyImpl.transpose, if_neg (by simp [polyOf]),
    show (polyOf q L psi .evaluation x).params.cyclotomicOrder = 2 ^ (L + 1) from rfl,
    PolyImpl.automorphismTransform_eq (polyOf_holds rep.shows.length) (odd_order L) rfl rfl]
  simp only [polyOf, ringParams]
  rw [run]
  rfl

/-- A vector of evaluations goes back to the coefficients they were taken from. -/
theorem switch_back (ring : OddRing w q L psi) (root : OddRing w q L rho) (one : 1 ≤ L) (small : L ≤ 24) [NeZero q]
    (rep : Represents rho .evaluation f x) {cache : Cache} (works : WorksWith w q L psi rho cache) :
    ∃ cache', (polyOf q L psi .evaluation x).setFormat w c arbitrarySwitchFormat .coefficient cache =
      (.ok (polyOf q L psi .coefficient (toValues f)), cache') ∧ WorksWith w q L psi rho cache' := by
  obtain ⟨ledger, mirrors, force⟩ := works
  have has : HasTables (2 ^ (L + 1)) := hasTables_iff.mpr ⟨one, small⟩
  have buildable := root.buildable
  obtain ⟨tables, φ, u, built, serve⟩ := buildTables_ok buildable.suitable one small buildable.odd root.lt root.unit
  obtain ⟨out, cache', made, after, ⟨-, none⟩ | ⟨rfl, found, recorded⟩⟩ := mirrors.preCompute ring.buildable
  · exact absurd has none
  · have own := ledger.record_rootFor (t := ⟨psi, 2 ^ (L + 1), q⟩) has
    rw [force] at own
    have tables_eq : tables = cache'.read q := Except.ok.inj (built.symm.trans (after.hasTables own).2)
    have same : values (residue q) x = forward (twiddle (residue q rho) L) L L (values (residue q) (toValues f)) := by
      funext k
      by_cases inside : k < 2 ^ L
      · have value := forward_eq_evalAt (ψ := residue q rho) root.half (toValues f) inside
        rw [ofValues_toValues] at value
        rw [values_eq_getD, rep.shows.residues ⟨k, inside⟩, value]
        simp [view, NativePoly.slot, Nat.log2_two_pow, residue]
      · obtain ⟨X, -, lengthX, values'⟩ := exists_forward (c := c) buildable.suitable one serve (toValues_length f) (toValues_lt f)
        rw [← values', values_of_le (by rw [rep.shows.length]; omega), values_of_le (by omega)]
    obtain ⟨sums, run, -⟩ := (inverse_returns (c := c) buildable.suitable one serve (toValues_length f) (toValues_lt f)
      rep.shows.length rep.lt same).runs _ (List.mem_cons_self ..)
    refine ⟨cache', ?_, _, after, ?_⟩
    · rw [PolyImpl.setFormat, if_pos (by simp [polyOf]),
        PolyImpl.switchFormat_eq arbitrarySwitchFormat (polyOf_holds rep.shows.length) ring.guard rfl rfl]
      simp only [polyOf, ringParams, withTables, made, ← tables_eq]
      simp only [PolyImpl.formatTransform, Transform.use, useInverseInPlace, run]
      rfl
    · rw [Ledger.rootFor_record has, force]

/-! ### The loop -/

namespace BinFHEScheme

theorem extract_ok (ring : OddRing w q L psi) (root : OddRing w q L rho) (one : 1 ≤ L) (small : L ≤ 24) [NeZero q]
    (rep : Represents rho .evaluation f x) {cache : Cache} (works : WorksWith w q L psi rho cache) :
    ∃ cache', extract w c arbitrarySwitchFormat (polyOf q L psi .evaluation x) cache =
      (.ok ⟨toValues (substPow (2 ^ (L + 1) - 1) f), q⟩, cache') ∧ WorksWith w q L psi rho cache' := by
  obtain ⟨z, turned, rep'⟩ := transpose_represents psi root one small rep
  obtain ⟨cache', switched, works'⟩ := switch_back (c := c) arbitrarySwitchFormat ring root one small rep' works
  refine ⟨cache', ?_, works'⟩
  rw [extract, turned]
  dsimp only
  rw [switched]
  rfl

theorem extract_fails (psi : ℕ) (length : x.length = 2 ^ L) (long : L = 0 ∨ 25 ≤ L) (fits : L ≤ 31) (cache : Cache) :
    extract w c arbitrarySwitchFormat (polyOf q L psi .evaluation x) cache = (.error .outOfRange, cache) := by
  have fails := PolyImpl.automorphism_evaluation_fails (w := w)
    (show (polyOf q L psi .evaluation x).Holds ⟨x, q⟩ from polyOf_holds length) (odd_order L) rfl rfl rfl long fits
  rw [extract, PolyImpl.transpose, if_neg (by simp [polyOf])]
  rw [show (polyOf q L psi .evaluation x).params.cyclotomicOrder = 2 ^ (L + 1) from rfl, fails]

theorem extractAll_ok (ring : OddRing w q L psi) (root : OddRing w q L rho) (one : 1 ≤ L) (small : L ≤ 24) [NeZero q]
    {accVec : List (List ℕ)} {acc : List (NativePoly (2 ^ L) q)}
    (rep : List.Forall₂ (fun a x => Represents rho .evaluation a x) acc accVec) {cache : Cache}
    (works : WorksWith w q L psi rho cache) :
    (extractAll w c arbitrarySwitchFormat (accVec.map (polyOf q L psi .evaluation)) cache).1 =
      .ok (acc.map fun a => ⟨toValues (substPow (2 ^ (L + 1) - 1) a), q⟩) := by
  induction rep generalizing cache with
  | nil => rfl
  | cons first rest ih =>
    obtain ⟨cache', extracted, works'⟩ := extract_ok (c := c) arbitrarySwitchFormat ring root one small first works
    rw [List.map_cons, extractAll, extracted]
    dsimp only
    rw [ih works']
    rfl

/-- The loop leaves `k` reduced vectors, and whatever the secrets their inner product is the constant coefficient of the
phase. -/
def KeepsConstant {k : ℕ} (acc : Fin k → NativePoly (2 ^ L) q) (run : Except Fault (List WordVector)) : Prop :=
  ∃ accExt : Fin k → WordVector, run = .ok (List.ofFn accExt) ∧
    (∀ u, (accExt u).modulus = q ∧ (accExt u).values.length = 2 ^ L ∧ ∀ a ∈ (accExt u).values, a < q) ∧
    ∀ f : Fin k → NativePoly (2 ^ L) q,
      ∑ u, ∑ j : Fin (2 ^ L), (((accExt u).values.getD j 0 : ℕ) : ZMod q) * (f u).coeff j = (∑ u, acc u * f u).coeff 0

theorem not_keepsConstant {k : ℕ} (pos : 0 < k) (long : L = 0 ∨ 25 ≤ L) (fits : L ≤ 31) (cache : Cache)
    {acc : Fin k → NativePoly (2 ^ L) q} {accVec : Fin k → List ℕ} (length : ∀ u, (accVec u).length = 2 ^ L) :
    ¬ KeepsConstant acc
      (extractAll w c arbitrarySwitchFormat (List.ofFn fun u => polyOf q L psi .evaluation (accVec u)) cache).1 := by
  rintro ⟨accExt, run, -⟩
  obtain ⟨u, rfl⟩ := Nat.exists_eq_succ_of_ne_zero pos.ne'
  have fails := extract_fails (w := w) (c := c) (q := q) arbitrarySwitchFormat psi (length 0) long fits cache
  rw [List.ofFn_succ, extractAll, fails] at run
  cases run

/-- The extraction keeps the constant coefficient just for the dimensions whose bits are reversed correctly. -/
theorem extractAll_keeps_iff {k : ℕ} (ring : OddRing w q L psi) (root : OddRing w q L rho) {cache : Cache}
    (works : WorksWith w q L psi rho cache) {acc : Fin k → NativePoly (2 ^ L) q} {accVec : Fin k → List ℕ}
    (rep : ∀ u, Represents rho .evaluation (acc u) (accVec u)) :
    KeepsConstant acc (extractAll w c arbitrarySwitchFormat (List.ofFn fun u => polyOf q L psi .evaluation (accVec u)) cache).1 ↔
      k = 0 ∨ 2 ≤ 2 ^ L ∧ 2 ^ L ≤ 2 ^ 24 := by
  have : NeZero q := ⟨by have := ring.two_le; omega⟩
  have bits : (2 ≤ 2 ^ L ∧ 2 ^ L ≤ 2 ^ 24) ↔ 1 ≤ L ∧ L ≤ 24 := by
    rw [Nat.pow_le_pow_iff_right (by norm_num)]
    exact and_congr_left' (Nat.pow_le_pow_iff_right (show 1 < 2 by norm_num) (n := 1))
  have word := ring.word
  rw [bits]
  constructor
  · intro keeps
    by_contra beyond
    exact not_keepsConstant arbitrarySwitchFormat (by omega) (by omega) (by omega) cache (fun u => (rep u).shows.length) keeps
  · rintro (rfl | ⟨one, small⟩)
    · refine ⟨fun u => u.elim0, by simp [extractAll], fun u => u.elim0, fun f => by simp⟩
    · refine ⟨fun u => ⟨toValues (substPow (2 ^ (L + 1) - 1) (acc u)), q⟩, ?_, fun u => ⟨rfl, toValues_length _, toValues_lt _⟩,
        fun f => ?_⟩
      · have all : List.Forall₂ (fun a x => Represents rho .evaluation a x) (List.ofFn acc) (List.ofFn accVec) := by
          rw [List.forall₂_iff_get]
          refine ⟨by simp, fun i hi _ => ?_⟩
          rw [List.length_ofFn] at hi
          simpa using rep ⟨i, hi⟩
        have returned := extractAll_ok (c := c) arbitrarySwitchFormat ring root one small all works
        rwa [List.map_ofFn, List.map_ofFn] at returned
      · rw [coeff_sum]
        refine Finset.sum_congr rfl fun u _ => ?_
        rw [← sum_substPow_inverse, ← pow_succ']
        refine Finset.sum_congr rfl fun j _ => ?_
        congr 1
        have inside : j.val < (toValues (substPow (2 ^ (L + 1) - 1) (acc u))).length := by
          rw [toValues_length]
          exact j.2
        rw [List.getD_eq_getElem _ _ inside]
        simp [toValues]

/-- Modulo 25, which is no prime, with the evaluations of `X` and of `1` at `7` and `7 ^ 3`. -/
theorem modulo_twenty_five :
    KeepsConstant (q := 25) (L := 1) ![⟨![0, 1]⟩, 1] (extractAll .w64 .gnu (fun _ => .error .outOfRange)
      (List.ofFn fun u : Fin 2 => polyOf 25 1 7 .evaluation (![[7, 18], [1, 1]] u)) {}).1 := by
  have ring : OddRing .w64 25 1 7 := ⟨by norm_num, by norm_num, by decide, by norm_num, by decide, by norm_num⟩
  refine (extractAll_keeps_iff _ ring ring worksWith_empty ?_).mpr (.inr ⟨by norm_num, by norm_num⟩)
  intro u
  fin_cases u
  · exact ⟨⟨rfl, by decide⟩, by decide⟩
  · exact ⟨⟨rfl, by decide⟩, by decide⟩

theorem zeros_represent (rho : ℕ) : Represents rho .evaluation (0 : NativePoly (2 ^ 25) 469762049) (List.replicate (2 ^ 25) 0) := by
  refine ⟨⟨List.length_replicate, fun i => ?_⟩, fun a ha => ?_⟩
  · rw [List.getD_eq_getElem _ _ (by rw [List.length_replicate]; exact i.2), List.getElem_replicate, Nat.cast_zero]
    exact (evalAt_zero _).symm
  · rw [List.eq_of_mem_replicate ha]
    norm_num

/-- From `2 ^ 25` on the transposition leaves the values. -/
theorem long_transpose_fails :
    OddRing .w64 469762049 25 2187 ∧ IsPrimitiveRoot ((2187 : ℕ) : ZMod 469762049) (2 ^ (25 + 1)) ∧
      Represents 2187 .evaluation (0 : NativePoly (2 ^ 25) 469762049) (List.replicate (2 ^ 25) 0) ∧
      ∀ arbitrarySwitchFormat, ¬ KeepsConstant (fun _ : Fin 1 => (0 : NativePoly (2 ^ 25) 469762049))
        (extractAll .w64 .gnu arbitrarySwitchFormat
          (List.ofFn fun _ : Fin 1 => polyOf 469762049 25 2187 .evaluation (List.replicate (2 ^ 25) 0)) {}).1 :=
  ⟨⟨by norm_num, by norm_num, by decide, by norm_num, pow_two_pow_25, by norm_num⟩, primitive_2187, zeros_represent 2187,
    fun arbitrarySwitchFormat => not_keepsConstant arbitrarySwitchFormat one_pos (.inr le_rfl) (by norm_num) {}
      fun _ => List.length_replicate⟩

end BinFHEScheme
end MultiKeyFHE
