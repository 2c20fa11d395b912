import MultiKeyFHE.Polynomial.Automorphism

/-!
# What the polynomial operations leave

One lemma for each operation of `PolyImpl`: on reduced operands it returns, and the result is reduced just where
the condition beside it holds. The conditions come from the vectors below, but for two: a change of format and
the evaluations of an automorphism need an order that has tables, and an automorphism in coefficient
format stores the modulus where it negates a zero.
-/

namespace MultiKeyFHE
open NativeInteger NumberTheoreticTransform Scatter

/-- The parameters of a ring of power of two order. -/
structure ILParams.IsRing (w : NativeSize) (params : ILParams) : Prop where
  dimension : ∃ L, params.ringDimension = 2 ^ L ∧ params.cyclotomicOrder = 2 ^ (L + 1) ∧ L + 1 < 32
  root : params.rootOfUnity ≠ 0
  two_le : 2 ≤ params.modulus
  word : params.modulus < 2 ^ w.bits

theorem ILParams.IsRing.pos {w : NativeSize} {params : ILParams} (ring : params.IsRing w) : 0 < params.modulus := by
  have := ring.two_le
  omega

namespace PolyImpl

structure Holds (a : PolyImpl) (v : WordVector) : Prop where
  values : a.values = some v
  modulus : v.modulus = a.params.modulus
  length : v.values.length = a.params.ringDimension

def Reduced (a : PolyImpl) : Prop := ∀ v, a.values = some v → v.Reduced

/-- The operation returns a polynomial of the ring, and it is reduced just where `P` holds. -/
def ReturnsReducedIff (run : Except Fault PolyImpl) (params : ILParams) (P : Prop) : Prop :=
  ∃ r v, run = .ok r ∧ r.params = params ∧ r.Holds v ∧ (v.Reduced ↔ P)

/-- No zero is at a place where the automorphism changes the sign. -/
def NoZeroNegated (k : ℕ) (a : PolyImpl) : Prop :=
  ∀ v, a.values = some v → ∀ j < a.params.ringDimension, j * k / a.params.ringDimension % 2 = 1 → v.values.getD j 0 ≠ 0

/-- Where an automorphism leaves a reduced polynomial. -/
def AutomorphismStays (k : ℕ) (a : PolyImpl) : Prop :=
  match a.format with
  | .evaluation => HasTables a.params.cyclotomicOrder
  | .coefficient => NoZeroNegated k a

variable {w : NativeSize} {c : Compiler} {a b : PolyImpl} {u v : WordVector} {P : Prop}

theorem Holds.get (holds : a.Holds v) : a.getValues = .ok v := by
  rw [getValues, holds.values]

theorem Holds.reduced (holds : a.Holds v) : a.Reduced ↔ v.Reduced := by
  unfold Reduced
  rw [holds.values]
  simp

theorem Holds.fits (holds : a.Holds v) (other : b.Holds u) (same : b.params = a.params) : WordVector.Fits v u := by
  refine ⟨?_, ?_⟩
  · rw [holds.modulus, other.modulus, same]
  · rw [holds.length, other.length, same]

theorem zero_holds (params : ILParams) (format : Format) :
    (zero params format).Holds ⟨List.replicate params.ringDimension 0, params.modulus⟩ :=
  ⟨rfl, rfl, List.length_replicate⟩

theorem zero_reduced {n m : ℕ} (pos : 0 < m) : WordVector.Reduced ⟨List.replicate n 0, m⟩ := by
  intro x hx
  rw [List.eq_of_mem_replicate hx]
  exact pos

/-- Storing the vector of an operation, with the checks of `SetValues`. -/
theorem setValues_returns (ring : a.params.IsRing w) (holds : a.Holds v) {run : Except Fault WordVector}
    (vector : WordVector.ReturnsReducedIff run v.modulus v.values.length P) (format : Format) :
    ReturnsReducedIff (do a.setValues (← run) format) a.params P := by
  obtain ⟨r, ended, modulus, length, reduced⟩ := vector
  rw [holds.modulus] at modulus
  rw [holds.length] at length
  refine ⟨⟨a.params, format, some r⟩, r, ?_, rfl, ⟨rfl, modulus, length⟩, reduced⟩
  rw [ended]
  dsimp only [bind, Except.bind]
  rw [setValues, if_neg ring.root, if_neg (by simp [modulus, length])]

theorem keepValues_returns (holds : a.Holds v) {run : Except Fault WordVector}
    (vector : WordVector.ReturnsReducedIff run v.modulus v.values.length P) :
    ReturnsReducedIff (do let values ← run; return { a with values := some values }) a.params P := by
  obtain ⟨r, ended, modulus, length, reduced⟩ := vector
  refine ⟨{ a with values := some r }, r, ?_, rfl, ⟨rfl, modulus.trans holds.modulus, length.trans holds.length⟩, reduced⟩
  rw [ended]
  rfl

section
variable (ring : a.params.IsRing w) (holds : a.Holds v) (reduced : v.Reduced)
include ring holds reduced

theorem plus_returns (other : b.Holds u) (reduced' : u.Reduced) (same : b.params = a.params)
    (format : b.format = a.format) : ReturnsReducedIff (a.plus w b) a.params True := by
  have fits := holds.fits other same
  have sum := WordVector.modAdd_returns (w := w) (by rw [holds.modulus]; exact ring.word.le) fits reduced reduced' ""
  rw [← WordVector.modAddNoCheckEq_eq fits] at sum
  have returns := keepValues_returns holds sum
  simp only [plus, same, format, ne_eq, not_true_eq_false, if_false, holds.get, other.get]
  exact returns

theorem plusScalar_returns (element : ℕ) : ReturnsReducedIff (a.plusScalar w element) a.params True := by
  have two : 2 ≤ v.modulus := by rw [holds.modulus]; exact ring.two_le
  have word : v.modulus ≤ 2 ^ w.bits := by rw [holds.modulus]; exact ring.word.le
  rw [plusScalar, holds.get]
  by_cases coefficient : a.format = .coefficient
  · have inside : 0 < v.values.length := by
      obtain ⟨L, dimension, -⟩ := ring.dimension
      rw [holds.length, dimension]
      positivity
    simp only [if_pos coefficient]
    exact setValues_returns ring holds (WordVector.modAddAtIndex_returns two word reduced inside element) a.format
  · simp only [if_neg coefficient]
    exact setValues_returns ring holds (WordVector.modAddScalar_returns (by omega) word reduced element) a.format

theorem minus_returns (other : b.Holds u) (reduced' : u.Reduced) (same : b.params = a.params) :
    ReturnsReducedIff (a.minus w b) a.params True := by
  have difference := WordVector.modSub_returns (w := w) (by rw [holds.modulus]; exact ring.word.le)
    (holds.fits other same) reduced reduced' "ModSub called on NativeVectorT's with different parameters."
  rw [minus, holds.get, other.get]
  exact setValues_returns ring holds difference a.format

theorem minusScalar_returns (element : ℕ) : ReturnsReducedIff (a.minusScalar w element) a.params True := by
  have difference := WordVector.modSubScalar_returns (w := w) (by rw [holds.modulus]; exact ring.pos)
    (by rw [holds.modulus]; exact ring.word.le) reduced element
  rw [minusScalar, holds.get]
  exact setValues_returns ring holds difference a.format

theorem times_returns (room : ¬ modulusTooLarge w a.params.modulus) (other : b.Holds u) (reduced' : u.Reduced)
    (same : b.params = a.params) (format : a.format = .evaluation) (format' : b.format = .evaluation) :
    ReturnsReducedIff (a.times w b) a.params (WordVector.ProductsFit w v u) := by
  have product := WordVector.modMul_returns (w := w) (by rw [holds.modulus]; exact ring.two_le)
    (by rw [holds.modulus]; exact room) (holds.fits other same) reduced reduced' (.inr (.inr rfl))
  have returns := keepValues_returns holds product
  rw [format] at returns
  simp only [times, same, format, format', ne_eq, not_true_eq_false, or_self, if_false, holds.get, other.get]
  exact returns

theorem timesScalar_returns (element : ℕ) : ReturnsReducedIff (a.timesScalar w element) a.params True := by
  have product := WordVector.modMulScalar_returns (w := w) (by rw [holds.modulus]; exact ring.pos)
    (by rw [holds.modulus]; exact ring.word.le) reduced element
  rw [timesScalar, holds.get]
  exact setValues_returns ring holds product a.format

omit holds reduced in
theorem signedFactor_ok (element : ℤ) : ∃ factor, signedFactor w a.params.modulus element = .ok factor := by
  have pos := ring.two_le
  rw [signedFactor]
  dsimp only [bind, Except.bind]
  split
  · rw [WordVector.modWord, if_neg (by omega)]
    exact ⟨_, rfl⟩
  · exact ⟨_, rfl⟩

theorem timesSigned_returns (element : ℤ) : ReturnsReducedIff (a.timesSigned w element) a.params True := by
  obtain ⟨factor, computed⟩ := signedFactor_ok ring element
  have product := WordVector.modMulScalar_returns (w := w) (by rw [holds.modulus]; exact ring.pos)
    (by rw [holds.modulus]; exact ring.word.le) reduced factor
  rw [timesSigned, computed, holds.get]
  exact setValues_returns ring holds product a.format

theorem negate_returns : ReturnsReducedIff (a.negate w) a.params True := by
  have pos := ring.two_le
  have zero := zero_holds a.params a.format
  have difference := WordVector.modSub_returns (w := w) (a := ⟨List.replicate a.params.ringDimension 0, a.params.modulus⟩)
    ring.word.le (zero.fits holds rfl) (zero_reduced (by omega)) reduced
    "ModSubEq called on NativeVectorT's with different parameters."
  rw [negate, minusEq, holds.get]
  exact keepValues_returns zero difference

end

/-! ### Automorphisms -/

theorem size_order (L : ℕ) : (2 ^ (L + 1)).size - 1 - 1 = L := by
  rw [Nat.size_pow]
  omega

/-- The checks of `AutomorphismTransform`, and the bits it works with. -/
theorem automorphismTransform_eq {k L : ℕ} (holds : a.Holds v) (odd : k % 2 = 1)
    (dimension : a.params.ringDimension = 2 ^ L) (order : a.params.cyclotomicOrder = 2 ^ (L + 1)) :
    a.automorphismTransform w k = do
      let result ← match a.format with
        | .evaluation => permuteEvaluations v.values (2 ^ L) L k
        | .coefficient => permuteCoefficients w a.params.modulus v.values (2 ^ L) L k
      return { a with values := some ⟨result, a.params.modulus⟩ } := by
  simp only [automorphismTransform, dimension, order, half_order, size_order, holds.get, ne_eq, not_true_eq_false, if_false,
    show ¬ k % 2 = 0 by omega]
  rfl

theorem automorphism_coefficient_returns {k : ℕ} (ring : a.params.IsRing w) (holds : a.Holds v) (reduced : v.Reduced)
    (odd : k % 2 = 1) (format : a.format = .coefficient) :
    ReturnsReducedIff (a.automorphismTransform w k) a.params (NoZeroNegated k a) := by
  obtain ⟨L, dimension, order, fits⟩ := ring.dimension
  have length := holds.length.trans dimension
  obtain ⟨result, run, written⟩ := permuteCoefficients_ok (w := w) (q := a.params.modulus) (k := k) (L := L) (by omega) odd
    length
  refine ⟨{ a with values := some ⟨result, a.params.modulus⟩ }, ⟨result, a.params.modulus⟩, ?_, rfl,
    ⟨rfl, rfl, written.length.trans dimension.symm⟩, ?_⟩
  · rw [automorphismTransform_eq holds odd dimension order, format]
    dsimp only
    rw [run]
    rfl
  · have entries : WordVector.Reduced ⟨result, a.params.modulus⟩ ↔
        ∀ j < 2 ^ L, movedCoefficient w a.params.modulus v.values L k j < a.params.modulus :=
      written.forall_mem (mul_permutes odd L) (P := fun x => x < a.params.modulus)
    have below : ∀ j < 2 ^ L, v.values.getD j 0 < a.params.modulus := by
      intro j hj
      rw [List.getD_eq_getElem _ _ (by omega), ← holds.modulus]
      exact reduced _ (List.getElem_mem _)
    rw [entries, NoZeroNegated]
    simp only [holds.values, Option.some.injEq, forall_eq', dimension]
    refine forall₂_congr fun j hj => ?_
    rw [movedCoefficient]
    by_cases negated : j * k / 2 ^ L % 2 = 1
    · rw [if_pos negated, WordVector.upper_lt_iff (below j hj).le ring.word]
      exact ⟨fun h _ => h, fun h => h negated⟩
    · rw [if_neg negated]
      exact iff_of_true (below j hj) fun h => absurd h negated

theorem automorphism_evaluation_returns {k : ℕ} (holds : a.Holds v) (reduced : v.Reduced) (odd : k % 2 = 1)
    (hk : k < 2 ^ 32) (format : a.format = .evaluation) {L : ℕ} (dimension : a.params.ringDimension = 2 ^ L)
    (order : a.params.cyclotomicOrder = 2 ^ (L + 1)) (one : 1 ≤ L) (small : L ≤ 24) :
    ReturnsReducedIff (a.automorphismTransform w k) a.params True := by
  have length := holds.length.trans dimension
  obtain ⟨result, run, written⟩ := permuteEvaluations_ok (k := k) one small hk length
  refine ⟨{ a with values := some ⟨result, a.params.modulus⟩ }, ⟨result, a.params.modulus⟩, ?_, rfl,
    ⟨rfl, rfl, written.length.trans dimension.symm⟩, iff_of_true ?_ trivial⟩
  · rw [automorphismTransform_eq holds odd dimension order, format]
    dsimp only
    rw [run]
    rfl
  · refine (written.forall_mem (reverse_permutes L)).mpr fun j _ => ?_
    have inside := BitReversal.reverseBits_lt L (movedIndex L k j)
    rw [List.getD_eq_getElem _ _ (by omega), ← holds.modulus]
    exact reduced _ (List.getElem_mem _)

theorem automorphism_evaluation_fails {k : ℕ} (holds : a.Holds v) (odd : k % 2 = 1) (format : a.format = .evaluation)
    {L : ℕ} (dimension : a.params.ringDimension = 2 ^ L) (order : a.params.cyclotomicOrder = 2 ^ (L + 1))
    (long : L = 0 ∨ 25 ≤ L) (fits : L ≤ 31) : a.automorphismTransform w k = .error .outOfRange := by
  rw [automorphismTransform_eq holds odd dimension order, format]
  dsimp only
  rw [permuteEvaluations_fails long fits]
  rfl

theorem automorphismPrecomp_returns {k : ℕ} {precomp : List ℕ} (ring : a.params.IsRing w) (holds : a.Holds v)
    (reduced : v.Reduced) (odd : k % 2 = 1) (format : a.format = .evaluation)
    (long : a.params.ringDimension ≤ precomp.length) (inside : ∀ i ∈ precomp, i < a.params.ringDimension) :
    ReturnsReducedIff (a.automorphismTransformPrecomp k precomp) a.params True := by
  obtain ⟨L, dimension, order, -⟩ := ring.dimension
  have half : a.params.ringDimension = a.params.cyclotomicOrder >>> 1 := by rw [dimension, order, half_order]
  obtain ⟨result, run, each⟩ := Run.mapM_ok (l := List.range a.params.ringDimension)
    (f := fun j => do
      let index ← InPlace.load Fault.outOfRange precomp j
      InPlace.load .outOfRange v.values index)
    (fun _ x => x < v.modulus) (by
      intro j hj
      have hj' : j < precomp.length := (List.mem_range.mp hj).trans_le long
      have index : precomp[j] < v.values.length := by
        rw [holds.length]
        exact inside _ (List.getElem_mem hj')
      refine ⟨v.values[precomp[j]], ?_, reduced _ (List.getElem_mem _)⟩
      rw [InPlace.load_ok _ hj']
      exact InPlace.load_ok _ index)
  refine ⟨{ a with values := some ⟨result, a.params.modulus⟩ }, ⟨result, a.params.modulus⟩, ?_, rfl, ⟨rfl, rfl, ?_⟩,
    iff_of_true ?_ trivial⟩
  · rw [automorphismTransformPrecomp, if_neg (by simp [format, ← half]), if_neg (by omega), holds.get]
    dsimp only [bind, Except.bind] at run ⊢
    rw [run]
    rfl
  · rw [← each.length_eq, List.length_range]
  · intro x hx
    obtain ⟨j, hj, rfl⟩ := List.getElem_of_mem hx
    have entry := each.get (by rw [each.length_eq]; exact hj) hj
    rw [← holds.modulus]
    exact entry

/-! ### Changes of format -/

/-- Every table of the ledger is that of a primitive root. -/
def Rooted (w : NativeSize) (ledger : Ledger) : Prop :=
  ∀ modulus order root, ledger modulus = some (order, root) → Admissible w ⟨root, order, modulus⟩

theorem Rooted.record {ledger : Ledger} (rooted : Rooted w ledger) {t : Triple} (admissible : Admissible w t) :
    Rooted w (ledger.record t) := by
  intro modulus order root found
  unfold Ledger.record at found
  split at found
  · by_cases same : modulus = t.modulus
    · subst same
      rw [Function.update_self] at found
      obtain ⟨rfl, rfl⟩ := Prod.mk.inj (Option.some.inj found)
      exact admissible
    · rw [Function.update_of_ne same] at found
      exact rooted modulus order root found
  · exact rooted modulus order root found

theorem Rooted.start : Rooted w fun _ => none := by
  intro _ _ _ found
  cases found

/-- Whatever the calls name, as long as it is admissible. -/
theorem Rooted.call {call : Call} (admissible : ∀ t ∈ call.triples, Admissible w t) {ledger : Ledger}
    (rooted : Rooted w ledger) : Rooted w (call.record ledger) := by
  cases call with
  | transform kind root order element result =>
    simp only [Call.record]
    split
    · exact rooted.record (admissible _ (List.mem_singleton_self _))
    · exact rooted
  | preCompute root order modulus => exact rooted.record (admissible _ (List.mem_singleton_self _))
  | preComputeAll roots order moduli =>
    simp only [Call.record]
    split
    · exact rooted
    · refine List.foldlRecOn _ _ rooted fun ledger rooted t member => ?_
      exact rooted.record (admissible t member)
  | reset => exact .start

/-- Whichever root the tables are for, the loops leave a reduced vector. -/
theorem use_reduced {root L : ℕ} (admissible : Admissible w ⟨root, 2 ^ (L + 1), v.modulus⟩) (one : 1 ≤ L) (small : L ≤ 24)
    {tables : Tables} (built : buildTables w root (2 ^ (L + 1)) v.modulus = .ok tables) (length : v.values.length = 2 ^ L)
    (reduced : v.Reduced) (format : Format) :
    ∃ X, (formatTransform format).1.use w c v ⟨[], 0⟩ tables = .ok ⟨X, v.modulus⟩ ∧ X.length = 2 ^ L ∧
      WordVector.Reduced ⟨X, v.modulus⟩ := by
  obtain ⟨suitable, odd, unit⟩ := admissible.suitable
  obtain ⟨tables', φ, u, built', serve⟩ := buildTables_ok suitable one small odd admissible.lt unit
  obtain rfl := Except.ok.inj (built.symm.trans built')
  cases format with
  | coefficient =>
    obtain ⟨work, run, length', good, -⟩ := forwardRuns_compute (c := c) suitable one serve length reduced _ (List.mem_cons_self ..)
    exact ⟨work.cells, congrArg (asVector v.modulus) run, length', good.cells⟩
  | evaluation =>
    obtain ⟨work, run, length', good, -⟩ := inverseRuns_compute (c := c) suitable one serve length reduced _ (List.mem_cons_self ..)
    exact ⟨work.cells, congrArg (asVector v.modulus) run, length', good.cells⟩

theorem switchFormat_eq (arbitrarySwitchFormat : PolyImpl → Except Fault PolyImpl) (holds : a.Holds v)
    (guard : ¬ (a.params.rootOfUnity = 1 ∨ a.params.rootOfUnity = 0)) {L : ℕ} (dimension : a.params.ringDimension = 2 ^ L) (order : a.params.cyclotomicOrder = 2 ^ (L + 1)) (cache : Cache) :
    a.switchFormat w c arbitrarySwitchFormat cache =
      let out := withTables w a.params.rootOfUnity a.params.cyclotomicOrder a.params.modulus
        ((formatTransform a.format).1.use w c v ⟨[], 0⟩) cache
      ((fun transformed => { a with format := (formatTransform a.format).2, values := transformed }) <$> some <$> out.1,
        out.2) := by
  have length := holds.length.trans dimension
  have half : a.params.cyclotomicOrder >>> 1 = 2 ^ L := by rw [order, half_order]
  have power : a.params.cyclotomicOrder.isPowerOfTwo := ⟨L + 1, order⟩
  have target : ((formatTransform a.format).1.target v ⟨[], 0⟩).1 = v := by cases a.format <;> rfl
  rw [switchFormat, if_neg (by rw [dimension, half]; simp), holds.values]
  simp only [Call.step, if_neg guard, power, not_true_eq_false, if_false, target, length, half, holds.modulus,
    ne_eq]

/-- A change of format keeps the ledger true; it returns, with a reduced polynomial, for the orders that have tables. -/
theorem switchFormat_cases (arbitrarySwitchFormat : PolyImpl → Except Fault PolyImpl) (ring : a.params.IsRing w)
    (holds : a.Holds v) (reduced : v.Reduced)
    (admissible : Admissible w ⟨a.params.rootOfUnity, a.params.cyclotomicOrder, a.params.modulus⟩) {cache : Cache}
    {ledger : Ledger} (mirrors : Mirrors w cache ledger) (rooted : Rooted w ledger) :
    ∃ out cache', a.switchFormat w c arbitrarySwitchFormat cache = (out, cache') ∧
      (∃ ledger', Mirrors w cache' ledger' ∧ Rooted w ledger') ∧
      (HasTables a.params.cyclotomicOrder ∧ ReturnsReducedIff out a.params True ∨
        ¬ HasTables a.params.cyclotomicOrder ∧ out = .error .outOfRange) := by
  obtain ⟨L, dimension, order, -⟩ := ring.dimension
  have length := holds.length.trans dimension
  obtain ⟨out, cache', run, after, outcome⟩ := mirrors.preCompute admissible.buildable
  rw [switchFormat_eq arbitrarySwitchFormat holds admissible.root_guard dimension order]
  refine ⟨_, _, rfl, ?_, ?_⟩
  · refine ⟨ledger.record ⟨a.params.rootOfUnity, a.params.cyclotomicOrder, a.params.modulus⟩, ?_, rooted.record admissible⟩
    rcases outcome with ⟨rfl, -⟩ | ⟨rfl, -⟩ <;> rw [withTables, run] <;> exact after
  · rcases outcome with ⟨rfl, none⟩ | ⟨rfl, root, recorded⟩
    · refine .inr ⟨none, ?_⟩
      rw [withTables, run]
      rfl
    · obtain ⟨has, built⟩ := after.hasTables recorded
      have own := (rooted.record admissible) _ _ _ recorded
      have bits := has
      rw [order, hasTables_iff] at bits
      rw [order, ← holds.modulus] at own
      rw [order] at built
      obtain ⟨X, used, lengthX, reducedX⟩ := use_reduced (c := c) own bits.1 bits.2 (by rw [holds.modulus]; exact built) length
        reduced a.format
      refine .inl ⟨has, { a with format := (formatTransform a.format).2, values := some ⟨X, v.modulus⟩ }, ⟨X, v.modulus⟩, ?_,
        rfl, ⟨rfl, holds.modulus, lengthX.trans dimension.symm⟩, iff_of_true reducedX trivial⟩
      rw [withTables, run]
      rw [holds.modulus] at used ⊢
      dsimp only
      rw [used]
      rfl

end PolyImpl
end MultiKeyFHE
