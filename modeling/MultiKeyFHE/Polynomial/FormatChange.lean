import MultiKeyFHE.Polynomial.Galois

/-!
# Operations and the change of format

Whether the format is changed before or after an operation makes no difference to the residues: either way the vector
shows the result of the operation. The evaluations are those at the powers of the root in force, the one whose tables
the cache has or gets.
-/

namespace MultiKeyFHE
open NativeInteger NumberTheoreticTransform InPlace Butterfly Negacyclic NegPoly

/-- The root whose tables a change of format finds or makes, after any history of admissible calls. -/
def InForce (w : NativeSize) (q L psi rho : ℕ) (cache : Cache) : Prop :=
  ∃ ledger, Mirrors w cache ledger ∧ PolyImpl.Rooted w ledger ∧
    ledger.record ⟨psi, 2 ^ (L + 1), q⟩ q = some (2 ^ (L + 1), rho)

variable {w : NativeSize} {c : Compiler} (arbitrarySwitchFormat : PolyImpl → Except Fault PolyImpl) {q L psi rho : ℕ}
  {f : NativePoly (2 ^ L) q} {x : List ℕ}

theorem TransformRing.admissible (ring : TransformRing w q L psi) : Admissible w ⟨psi, 2 ^ (L + 1), q⟩ := by
  have small := ring.small
  exact ⟨ring.prime, ring.room, ⟨L, rfl⟩, Nat.pow_lt_pow_right (by norm_num) (by omega), ring.lt, ring.root⟩

theorem TransformRing.hasTables (ring : TransformRing w q L psi) : HasTables (2 ^ (L + 1)) :=
  hasTables_iff.mpr ⟨ring.one, ring.small⟩

theorem record_twice (t : Triple) (ledger : Ledger) : (ledger.record t).record t = ledger.record t := by
  have known : ¬ (HasTables t.cycloOrder ∧ ((ledger.record t) t.modulus).map Prod.fst ≠ some t.cycloOrder) := by
    rintro ⟨has, other⟩
    unfold Ledger.record at other
    split at other
    · simp at other
    · rename_i kept
      exact kept ⟨has, other⟩
  conv_lhs => rw [Ledger.record, if_neg known]

namespace InForce

theorem start (ring : TransformRing w q L psi) : InForce w q L psi psi {} := by
  refine ⟨fun _ => none, mirrors_empty, .start, ?_⟩
  rw [Ledger.record, if_pos ⟨ring.hasTables, by simp⟩]
  exact Function.update_self ..

theorem exists_of_mirrors (ring : TransformRing w q L psi) {cache : Cache} {ledger : Ledger} (mirrors : Mirrors w cache ledger)
    (rooted : PolyImpl.Rooted w ledger) : ∃ rho, InForce w q L psi rho cache := by
  by_cases kept : (ledger q).map Prod.fst = some (2 ^ (L + 1))
  · obtain ⟨⟨order, root⟩, found, same⟩ := Option.map_eq_some_iff.mp kept
    refine ⟨root, ledger, mirrors, rooted, ?_⟩
    rw [Ledger.record, if_neg (fun new => new.2 kept), found]
    exact congrArg (fun order => some (order, root)) same
  · refine ⟨psi, ledger, mirrors, rooted, ?_⟩
    rw [Ledger.record, if_pos ⟨ring.hasTables, kept⟩]
    exact Function.update_self ..

theorem ring (ring : TransformRing w q L psi) {cache : Cache} (inForce : InForce w q L psi rho cache) :
    TransformRing w q L rho := by
  obtain ⟨ledger, -, rooted, recorded⟩ := inForce
  have admissible := rooted.record ring.admissible _ _ _ recorded
  exact ⟨ring.prime, ring.room, admissible.lt, admissible.root, ring.one, ring.small⟩

end InForce

/-- The cache that a history of calls leaves. -/
def cacheAfter (w : NativeSize) (c : Compiler) (history : List Call) : Cache :=
  history.foldl (fun cache call => (call.step w c cache).2) {}

theorem cacheAfter_inForce (ring : TransformRing w q L psi) {history : List Call}
    (admissible : ∀ call ∈ history, ∀ t ∈ call.triples, Admissible w t) :
    ∃ rho, InForce w q L psi rho (cacheAfter w c history) := by
  obtain ⟨ledger, mirrors, rooted⟩ : ∃ ledger, Mirrors w (cacheAfter w c history) ledger ∧ PolyImpl.Rooted w ledger := by
    refine List.foldlRecOn (motive := fun cache => ∃ ledger, Mirrors w cache ledger ∧ PolyImpl.Rooted w ledger) _ _
      ⟨_, mirrors_empty, .start⟩ ?_
    rintro cache ⟨ledger, mirrors, rooted⟩ call member
    exact ⟨_, mirrors.after (admissible call member), rooted.call (admissible call member)⟩
  exact InForce.exists_of_mirrors ring mirrors rooted

/-! ### The change of format -/

/-- Every change of format with `rho` in force takes `a` to `r`, and keeps `rho` in force. -/
def SwitchesTo (w : NativeSize) (c : Compiler) (arbitrarySwitchFormat : PolyImpl → Except Fault PolyImpl) (q L psi rho : ℕ)
    (a r : PolyImpl) : Prop :=
  ∀ cache, InForce w q L psi rho cache → ∃ cache', a.switchFormat w c arbitrarySwitchFormat cache = (.ok r, cache') ∧
    InForce w q L psi rho cache'

/-- The transform of any entries that the butterflies can work with shows the same polynomial. -/
theorem switchesTo (ring : TransformRing w q L psi) (root : TransformRing w q L rho) {P : ℕ → Prop} {Q : ℤ → Prop}
    (refines : ∀ omega < q, Refines P Q (residue q) (forwardShoup w c q omega (quotient w q omega)) (split (residue q omega)))
    (shows : Shows rho .coefficient f x) (good : InPlace.Admissible P Q (⟨x, []⟩ : Work)) :
    ∃ X, SwitchesTo w c arbitrarySwitchFormat q L psi rho (polyOf q L psi .coefficient x) (polyOf q L psi .evaluation X) ∧
      Shows rho .evaluation f X ∧ ∀ a ∈ X, P a := by
  obtain ⟨suitable, odd, unit⟩ := root.admissible.suitable
  obtain ⟨tables, φ, u, built, serve⟩ := buildTables_ok suitable root.one root.small odd root.lt unit
  obtain ⟨work, run, length, good', value⟩ := forwardInPlacePrecon_leads (c := c) root.one serve.roots refines shows.length good
  refine ⟨work.cells, ?_, ⟨length, fun i => ?_⟩, good'.cells⟩
  · rintro cache ⟨ledger, mirrors, rooted, recorded⟩
    obtain ⟨out, cache', made, after, ⟨-, none⟩ | ⟨rfl, found, recorded'⟩⟩ := mirrors.preCompute ring.admissible.buildable
    · exact absurd ring.hasTables none
    · obtain rfl : rho = found := (Prod.mk.inj (Option.some.inj (recorded.symm.trans recorded'))).2
      refine ⟨cache', ?_, _, after, rooted.record ring.admissible, by rw [record_twice, recorded]⟩
      have tables_eq : tables = cache'.read q := Except.ok.inj (built.symm.trans (after.hasTables recorded').2)
      rw [PolyImpl.switchFormat_eq arbitrarySwitchFormat (polyOf_holds shows.length) ring.admissible.root_guard rfl rfl]
      simp only [polyOf, ringParams, withTables, made, ← tables_eq]
      simp only [PolyImpl.formatTransform, Transform.use, useForwardInPlace, serve.precon, run]
      rfl
  · rw [← values_eq_getD, value]
    have same : (NativePoly.ofValues x : NativePoly (2 ^ L) q) = f := NegPoly.ext (funext shows.residues)
    exact (forward_eq_evalAt root.half x i.2).trans (by rw [same]; simp [view, NativePoly.slot, Nat.log2_two_pow])

theorem switch_reduced (ring : TransformRing w q L psi) (root : TransformRing w q L rho)
    (rep : Represents rho .coefficient f x) :
    ∃ X, SwitchesTo w c arbitrarySwitchFormat q L psi rho (polyOf q L psi .coefficient x) (polyOf q L psi .evaluation X) ∧
      Represents rho .evaluation f X := by
  have suitable := root.admissible.suitable.1
  obtain ⟨X, switches, shows, lt⟩ := switchesTo (c := c) arbitrarySwitchFormat ring root
    (fun _ h => refines_forwardShoup suitable h) rep.shows (start_good rep.lt)
  exact ⟨X, switches, shows, lt⟩

theorem switch_upTo (ring : TransformRing w q L psi) (root : TransformRing w q L rho) (shows : Shows rho .coefficient f x)
    (le : ∀ a ∈ x, a ≤ q) :
    ∃ X, SwitchesTo w c arbitrarySwitchFormat q L psi rho (polyOf q L psi .coefficient x) (polyOf q L psi .evaluation X) ∧
      Shows rho .evaluation f X := by
  have suitable := root.admissible.suitable.1
  obtain ⟨X, switches, shows, -⟩ := switchesTo (c := c) arbitrarySwitchFormat ring root
    (fun _ h => refines_forwardShoup_le suitable h) shows ⟨le, fun _ none => nomatch none⟩
  exact ⟨X, switches, shows⟩

/-! ### The two ways around -/

section Square
variable (w c) (q L psi rho : ℕ) (op : PolyImpl → PolyImpl → Except Fault PolyImpl)

/-- The operation among coefficients and then a change of format, and the changes first. -/
structure FormatSquare (h : NativePoly (2 ^ L) q) (x y z z' x' y' v : List ℕ) : Prop where
  coefficients : op (polyOf q L psi .coefficient x) (polyOf q L psi .coefficient y) = .ok (polyOf q L psi .coefficient z)
  switched : SwitchesTo w c arbitrarySwitchFormat q L psi rho (polyOf q L psi .coefficient z) (polyOf q L psi .evaluation z')
  switchedX : SwitchesTo w c arbitrarySwitchFormat q L psi rho (polyOf q L psi .coefficient x) (polyOf q L psi .evaluation x')
  switchedY : SwitchesTo w c arbitrarySwitchFormat q L psi rho (polyOf q L psi .coefficient y) (polyOf q L psi .evaluation y')
  evaluations : op (polyOf q L psi .evaluation x') (polyOf q L psi .evaluation y') = .ok (polyOf q L psi .evaluation v)
  same : z'.map (Nat.cast : ℕ → ZMod q) = v.map Nat.cast
  shows : Shows rho .coefficient h z

/-- Both ways around the residues are the same, and among coefficients the operation is `h`. -/
def Commutes (h : NativePoly (2 ^ L) q) (x y : List ℕ) : Prop :=
  ∃ z z' x' y' v, FormatSquare w c arbitrarySwitchFormat q L psi rho op h x y z z' x' y' v

end Square

section
variable {g h : NativePoly (2 ^ L) q} {y : List ℕ} {op : PolyImpl → PolyImpl → Except Fault PolyImpl}

/-- It is enough that each of the two ways shows `h`. -/
theorem commutes_of_shows (ring : TransformRing w q L psi) (root : TransformRing w q L rho)
    (repF : Represents rho .coefficient f x) (repG : Represents rho .coefficient g y)
    (coefficients : ∃ z, op (polyOf q L psi .coefficient x) (polyOf q L psi .coefficient y) = .ok (polyOf q L psi .coefficient z) ∧
      Shows rho .coefficient h z ∧ ∀ a ∈ z, a ≤ q)
    (evaluations : ∀ x' y', Represents rho .evaluation f x' → Represents rho .evaluation g y' →
      Gives psi rho .evaluation h (op (polyOf q L psi .evaluation x') (polyOf q L psi .evaluation y'))) :
    Commutes w c arbitrarySwitchFormat q L psi rho op h x y := by
  obtain ⟨z, computed, shows, le⟩ := coefficients
  obtain ⟨z', switched, shows'⟩ := switch_upTo (c := c) arbitrarySwitchFormat ring root shows le
  obtain ⟨x', switchedX, repX⟩ := switch_reduced (c := c) arbitrarySwitchFormat ring root repF
  obtain ⟨y', switchedY, repY⟩ := switch_reduced (c := c) arbitrarySwitchFormat ring root repG
  obtain ⟨v, computed', rep⟩ := evaluations x' y' repX repY
  exact ⟨z, z', x', y', v, computed, switched, switchedX, switchedY, computed', shows'.residues_eq rep.shows, shows⟩

theorem commutes_of_gives (ring : TransformRing w q L psi) (root : TransformRing w q L rho)
    (repF : Represents rho .coefficient f x) (repG : Represents rho .coefficient g y)
    (gives : ∀ format x y, Represents rho format f x → Represents rho format g y →
      Gives psi rho format h (op (polyOf q L psi format x) (polyOf q L psi format y))) :
    Commutes w c arbitrarySwitchFormat q L psi rho op h x y := by
  refine commutes_of_shows arbitrarySwitchFormat ring root repF repG ?_ (gives .evaluation)
  obtain ⟨z, computed, rep⟩ := gives .coefficient x y repF repG
  exact ⟨z, computed, rep.shows, fun a ha => (rep.lt a ha).le⟩

end

/-- What holds for the polynomials with the coefficients `x` and `y`. -/
structure FormatsCommute (w : NativeSize) (c : Compiler) (arbitrarySwitchFormat : PolyImpl → Except Fault PolyImpl)
    (q L psi rho : ℕ) (x y : List ℕ) (f g : NativePoly (2 ^ L) q) : Prop where
  plus : Commutes w c arbitrarySwitchFormat q L psi rho (fun a b => a.plus w b) (f + g) x y
  minus : Commutes w c arbitrarySwitchFormat q L psi rho (fun a b => a.minus w b) (f - g) x y
  negate : Commutes w c arbitrarySwitchFormat q L psi rho (fun a _ => a.negate w) (-f) x y
  times (s : ℕ) : Commutes w c arbitrarySwitchFormat q L psi rho (fun a _ => a.timesScalar w s) (const (s : ZMod q) * f) x y
  timesSigned (e : ℤ) : |e| < 2 ^ w.bits →
    Commutes w c arbitrarySwitchFormat q L psi rho (fun a _ => a.timesSigned w e) (const (e : ZMod q) * f) x y
  plusScalar (s : ℕ) : Commutes w c arbitrarySwitchFormat q L psi rho (fun a _ => a.plusScalar w s) (f + const (s : ZMod q)) x y
  automorphism (k : ℕ) : k % 2 = 1 → k < 2 ^ 32 →
    Commutes w c arbitrarySwitchFormat q L psi rho (fun a _ => a.automorphismTransform w k) (substPow k f) x y
  precomputed (k : ℕ) : k % 2 = 1 → k < 2 ^ 32 → ∀ given : List ℕ, given.length = 2 ^ L → ∃ x' precomp,
    SwitchesTo w c arbitrarySwitchFormat q L psi rho (polyOf q L psi .coefficient x) (polyOf q L psi .evaluation x') ∧
    NbTheory.precomputeAutoMap (2 ^ L) k given = .ok precomp ∧
    (polyOf q L psi .evaluation x').automorphismTransformPrecomp k precomp =
      (polyOf q L psi .evaluation x').automorphismTransform w k
  minusScalar (s : ℕ) : ∃ x' v,
    SwitchesTo w c arbitrarySwitchFormat q L psi rho (polyOf q L psi .coefficient x) (polyOf q L psi .evaluation x') ∧
    (polyOf q L psi .evaluation x').minusScalar w s = .ok (polyOf q L psi .evaluation v) ∧
    Shows rho .evaluation (f - const (s : ZMod q)) v
  transpose : ∃ x' v,
    SwitchesTo w c arbitrarySwitchFormat q L psi rho (polyOf q L psi .coefficient x) (polyOf q L psi .evaluation x') ∧
    (polyOf q L psi .evaluation x').transpose w = .ok (polyOf q L psi .evaluation v) ∧
    Shows rho .evaluation (substPow (2 ^ (L + 1) - 1) f) v
  transposeRefused : (polyOf q L psi .coefficient x).transpose w = .error (.notImplementedError
    "PolyInterface element transposition is currently implemented only in the Evaluation representation.")

theorem transpose_gives (ring : TransformRing w q L psi) (half : (rho : ZMod q) ^ 2 ^ L = -1)
    (rep : Represents rho .evaluation f x) :
    Gives psi rho .evaluation (substPow (2 ^ (L + 1) - 1) f) ((polyOf q L psi .evaluation x).transpose w) := by
  have small := ring.small
  have positive : 2 ^ (L + 1) = 2 * 2 ^ L := pow_succ' 2 L
  have order : 2 ^ (L + 1) < 2 ^ 32 := Nat.pow_lt_pow_right (by norm_num) (by omega)
  have room : 0 < 2 ^ L := by positivity
  obtain ⟨v, moved, rep', -⟩ := automorphism_evaluation (k := 2 ^ (L + 1) - 1) ring half rep (by omega) (by omega)
  exact ⟨v, moved, rep'⟩

theorem formatsCommute (ring : TransformRing w q L psi) (root : TransformRing w q L rho) {g : NativePoly (2 ^ L) q} {y : List ℕ}
    (repF : Represents rho .coefficient f x) (repG : Represents rho .coefficient g y) :
    FormatsCommute w c arbitrarySwitchFormat q L psi rho x y f g := by
  have half := root.half
  obtain ⟨x', switched, repX⟩ := switch_reduced (c := c) arbitrarySwitchFormat ring root repF
  constructor
  case plus => exact commutes_of_gives arbitrarySwitchFormat ring root repF repG fun _ _ _ hx hy => plus_gives ring hx hy
  case minus => exact commutes_of_gives arbitrarySwitchFormat ring root repF repG fun _ _ _ hx hy => minus_gives ring hx hy
  case negate => exact commutes_of_gives arbitrarySwitchFormat ring root repF repG fun _ _ _ hx _ => negate_gives ring hx
  case times => exact fun s => commutes_of_gives arbitrarySwitchFormat ring root repF repG fun _ _ _ hx _ => timesScalar_gives ring hx half s
  case timesSigned =>
    exact fun e fits => commutes_of_gives arbitrarySwitchFormat ring root repF repG fun _ _ _ hx _ => timesSigned_gives ring hx half fits
  case plusScalar => exact fun s => commutes_of_gives arbitrarySwitchFormat ring root repF repG fun _ _ _ hx _ => plusScalar_gives ring hx s
  case automorphism =>
    intro k odd hk
    refine commutes_of_shows arbitrarySwitchFormat ring root repF repG (automorphism_coefficient ring repF odd) fun x' y' hx _ => ?_
    obtain ⟨v, moved, rep, -⟩ := automorphism_evaluation ring half hx odd hk
    exact ⟨v, moved, rep⟩
  case precomputed =>
    intro k odd hk given length
    obtain ⟨precomp, computed, same⟩ := automorphism_precomputed ring half repX odd hk length
    exact ⟨x', precomp, switched, computed, same⟩
  case minusScalar =>
    intro s
    obtain ⟨v, computed, rep⟩ := minusScalar_gives ring repX s
    exact ⟨x', v, switched, computed, rep.shows⟩
  case transpose =>
    obtain ⟨v, computed, rep⟩ := transpose_gives ring half repX
    exact ⟨x', v, switched, computed, rep.shows⟩
  case transposeRefused => rfl

theorem ofValues_represents (length : x.length = 2 ^ L) (lt : ∀ a ∈ x, a < q) :
    Represents rho .coefficient (NativePoly.ofValues x : NativePoly (2 ^ L) q) x :=
  ⟨⟨length, fun _ => rfl⟩, lt⟩

/-- After any history of the cache, the operations on coefficients and on evaluations are the same operations. -/
theorem formats_commute (w : NativeSize) (c : Compiler) (ring : TransformRing w q L psi) {history : List Call}
    (admissible : ∀ call ∈ history, ∀ t ∈ call.triples, Admissible w t) :
    ∃ rho, InForce w q L psi rho (cacheAfter w c history) ∧
      ∀ x y : List ℕ, x.length = 2 ^ L → y.length = 2 ^ L → (∀ a ∈ x, a < q) → (∀ b ∈ y, b < q) →
        FormatsCommute w c arbitrarySwitchFormat q L psi rho x y (NativePoly.ofValues x) (NativePoly.ofValues y) := by
  obtain ⟨rho, inForce⟩ := cacheAfter_inForce (c := c) ring admissible
  refine ⟨rho, inForce, fun x y lengthX lengthY ltX ltY => ?_⟩
  exact formatsCommute arbitrarySwitchFormat ring (inForce.ring ring) (ofValues_represents lengthX ltX) (ofValues_represents lengthY ltY)

theorem ring_seventeen : TransformRing .w64 17 1 4 :=
  ⟨admissible_four.prime, admissible_four.room, admissible_four.lt, admissible_four.root, le_rfl, by norm_num⟩

/-- Here the tables are those of another root. -/
theorem seventeen_commutes : ∃ rho, InForce .w64 17 1 4 rho (cacheAfter .w64 .gnu [transformOfX 13]) ∧
    FormatsCommute .w64 .gnu .ok 17 1 4 rho [1, 2] [3, 4] (NativePoly.ofValues [1, 2]) (NativePoly.ofValues [3, 4]) := by
  have admissible : ∀ call ∈ [transformOfX 13], ∀ t ∈ call.triples, Admissible .w64 t := by
    intro call member t named
    rw [List.mem_singleton.mp member] at named
    rw [List.mem_singleton.mp named]
    exact admissible_thirteen
  obtain ⟨rho, inForce, commutes⟩ := formats_commute .ok .w64 .gnu ring_seventeen admissible
  exact ⟨rho, inForce, commutes [1, 2] [3, 4] rfl rfl (by decide) (by decide)⟩

/-- `Transpose` does not commute: evaluations can be transposed and coefficients cannot. -/
theorem transpose_needs_evaluations :
    TransformRing .w64 17 1 4 ∧ (polyOf 17 1 4 .evaluation [9, 10]).transpose .w64 = .ok (polyOf 17 1 4 .evaluation [10, 9]) ∧
      ¬ ∃ h, Commutes .w64 .gnu .ok 17 1 4 4 (fun a _ => a.transpose .w64) h [1, 2] [3, 4] := by
  refine ⟨ring_seventeen, by decide +kernel, ?_⟩
  rintro ⟨h, z, z', x', y', v, square⟩
  cases square.coefficients

end MultiKeyFHE
