import MultiKeyFHE.Context.Generate
import Mathlib.Analysis.SpecialFunctions.Log.Base
import Mathlib.Analysis.Complex.ExponentialBounds

/-!
# The gadget table and the gadget base

`GetGPower()` should hold the powers of `GetBaseG()`, as many as `GetDigitsG()` says. The parameters of a context
go through `Change_BaseG` and through `save` and `load`; `gadget_table_iff` says which creations and which calls
keep the table right. Logarithms are exact here, and `noexcept(log(x))` is the number one.
-/

namespace MultiKeyFHE
open NativeInteger BinFHECryptoParams

/-- Exact logarithms, and a search for primes that finds primes. -/
structure Platform.Exact (plat : Platform) : Prop where
  digitCount : ∀ Q base, plat.digitCount Q base = ⌈Real.log Q / Real.log base⌉₊
  signDigits : ∀ Q base, plat.signDigits Q base = ⌈Real.log Q / 1⌉₊
  prime : ∀ bits order Q, plat.intermediatePrime bits order = .ok Q → Q.Prime

namespace Platform.Exact
variable {plat : Platform}

theorem digitCount_eq (exact : plat.Exact) (Q base : ℕ) : plat.digitCount Q base = Nat.clog base Q := by
  rw [exact.digitCount, ← Real.natCeil_logb_natCast, Real.logb]

/-- The divisor one instead of `log(base)` makes the table longer than needed, never shorter. -/
theorem digitCount_le_signDigits (exact : plat.Exact) (Q : ℕ) {base : ℕ} (hbase : 3 ≤ base) :
    plat.digitCount Q base ≤ plat.signDigits Q base := by
  rw [exact.digitCount, exact.signDigits]
  have hlog : 0 ≤ Real.log Q := Real.log_natCast_nonneg Q
  have three : (3 : ℝ) ≤ base := by exact_mod_cast hbase
  have one : 1 ≤ Real.log base := by
    rw [Real.le_log_iff_exp_le (by linarith)]
    linarith [Real.exp_one_lt_d9]
  exact Nat.ceil_le_ceil (div_le_div_of_nonneg_left hlog one_pos one)

end Platform.Exact

namespace Gadget

/-- The table serves the base in use. -/
structure Matches (g : Gadget) : Prop where
  length : g.digitsG ≤ g.Gpower.length
  powers : ∀ i < g.digitsG, g.Gpower[i]? = some (g.baseG ^ i % g.Q)
  enough : g.baseG ^ (g.digitsG - 1) < g.Q ∧ g.Q ≤ g.baseG ^ g.digitsG

theorem matches_gpowerTable {Q base digits count : ℕ} (map : KeyMap (List ℕ)) (hQ : 1 < Q) (long : digits ≤ count)
    (enough : base ^ (digits - 1) < Q ∧ Q ≤ base ^ digits) :
    Matches ⟨Q, base, digits, gpowerTable base Q count, map⟩ where
  length := by
    change digits ≤ (gpowerTable base Q count).length
    rw [gpowerTable_length]
    exact long
  powers := fun _ hi => gpowerTable_get (Nat.lt_of_lt_of_le hi long) hQ
  enough := enough

theorem clog_enough {Q base : ℕ} (hQ : 1 < Q) (hbase : 2 ≤ base) :
    base ^ (Nat.clog base Q - 1) < Q ∧ Q ≤ base ^ Nat.clog base Q :=
  ⟨Nat.pow_pred_clog_lt_self hbase hQ, Nat.le_pow_clog hbase Q⟩

theorem not_matches_of_empty {g : Gadget} (hQ : 1 < g.Q) (empty : g.Gpower = []) : ¬ g.Matches := by
  intro good
  have none : g.digitsG = 0 := by
    have := good.length
    rw [empty, List.length_nil] at this
    omega
  have := good.enough.2
  rw [none, pow_zero] at this
  omega

variable (plat : Platform)

/-- The table in use and every table that `Change_BaseG` can put in its place are right. -/
structure Tabulated (g : Gadget) : Prop where
  large : 1 < g.Q
  inUse : g.Matches
  entries : ∀ base table, g.Gpower_map.get? base = some table →
    Matches ⟨g.Q, base, plat.digitCount g.Q base, table, []⟩

variable {plat} {g : Gadget}

theorem Matches.withMap (good : g.Matches) (map : KeyMap (List ℕ)) : Matches { g with Gpower_map := map } :=
  ⟨good.length, good.powers, good.enough⟩

theorem Tabulated.changeBaseG (tabulated : g.Tabulated plat) {base : ℕ}
    (listed : base = g.baseG ∨ base ∈ g.Gpower_map.keys) : (g.changeBaseG plat base).Tabulated plat := by
  by_cases same : g.baseG = base
  · rw [← same, changeBaseG_self]
    exact tabulated
  · have member := listed.resolve_left (Ne.symm same)
    obtain ⟨table, found⟩ := KeyMap.exists_get?_of_mem member
    have good := tabulated.entries base table found
    rw [Gadget.changeBaseG, if_pos same, KeyMap.touch_of_mem member, found]
    exact ⟨tabulated.large, good.withMap _, tabulated.entries⟩

/-- A base that the table does not list gets an empty vector. -/
theorem changeBaseG_not_matches (hQ : 1 < g.Q) {base : ℕ} (other : base ≠ g.baseG) (missing : base ∉ g.Gpower_map.keys) :
    ¬ (g.changeBaseG plat base).Matches := by
  refine not_matches_of_empty ?_ ?_
  · rw [changeBaseG_Q]
    exact hQ
  · rw [Gadget.changeBaseG, if_pos (Ne.symm other), KeyMap.get?_eq_none missing]
    rfl

/-! ### `PreCompute` -/

theorem preComputeBase_fold (plat : Platform) (bases : List ℕ) (g : Gadget) :
    let g' := bases.foldl (preComputeBase plat) g
    (g'.Q = g.Q ∧ g'.baseG = g.baseG ∧ g'.digitsG = g.digitsG) ∧
      g'.Gpower = (if g.baseG ∈ bases then gpowerTable g.baseG g.Q (plat.signDigits g.Q g.baseG) else g.Gpower) ∧
      ∀ base, g'.Gpower_map.get? base =
        if base ∈ bases then some (gpowerTable base g.Q (plat.signDigits g.Q base)) else g.Gpower_map.get? base := by
  induction bases generalizing g with
  | nil => simp
  | cons first rest ih =>
    obtain ⟨⟨hQ, hbase, hdigits⟩, hpower, hmap⟩ := ih (preComputeBase plat g first)
    refine ⟨⟨hQ, hbase, hdigits⟩, ?_, fun base => ?_⟩
    · rw [List.foldl_cons, hpower]
      by_cases same : g.baseG = first <;> by_cases later : g.baseG ∈ rest <;> simp [preComputeBase, same, later]
    · rw [List.foldl_cons, hmap]
      by_cases later : base ∈ rest
      · simp [preComputeBase, later]
      · by_cases same : base = first
        · subst same
          simp [preComputeBase, later]
        · simp [preComputeBase, later, same, KeyMap.get?_write_other same]

/-- Base and modulus for which the constructor fills the right table. -/
def Served (signEval : Bool) (Q baseG : ℕ) : Prop := 1 < Q ∧ 2 ≤ baseG ∧ (signEval = true → baseG ∈ baseGlist)

theorem three_le_of_listed {base : ℕ} (listed : base ∈ baseGlist) : 3 ≤ base := by
  simp only [baseGlist, List.mem_cons, List.not_mem_nil, or_false] at listed
  omega

theorem signTable_matches (exact : plat.Exact) {Q base : ℕ} (hQ : 1 < Q) (listed : base ∈ baseGlist)
    (map : KeyMap (List ℕ)) :
    Matches ⟨Q, base, plat.digitCount Q base, gpowerTable base Q (plat.signDigits Q base), map⟩ := by
  have three := three_le_of_listed listed
  refine matches_gpowerTable map hQ (exact.digitCount_le_signDigits Q three) ?_
  rw [exact.digitCount_eq]
  exact clog_enough hQ (by omega)

theorem preCompute_tabulated (exact : plat.Exact) {signEval : Bool} {Q baseG : ℕ} (served : Served signEval Q baseG) :
    (preCompute plat signEval ⟨Q, baseG, plat.digitCount Q baseG, [], []⟩).Tabulated plat := by
  obtain ⟨hQ, hbase, listed⟩ := served
  cases signEval with
  | true =>
    obtain ⟨⟨sameQ, sameBase, sameDigits⟩, power, map⟩ :=
      preComputeBase_fold plat baseGlist ⟨Q, baseG, plat.digitCount Q baseG, [], []⟩
    rw [if_pos (listed rfl)] at power
    rw [preCompute, if_pos rfl]
    refine ⟨by rw [sameQ]; exact hQ, ?_, ?_⟩
    · have good := signTable_matches exact hQ (listed rfl) []
      refine ⟨?_, ?_, ?_⟩
      · rw [power, sameDigits]
        exact good.length
      · rw [power, sameDigits, sameBase, sameQ]
        exact good.powers
      · rw [sameDigits, sameBase, sameQ]
        exact good.enough
    · intro base table found
      rw [map] at found
      split at found
      · rename_i member
        cases found
        rw [sameQ]
        exact signTable_matches exact hQ member []
      · cases found
  | false =>
    refine ⟨hQ, ?_, ?_⟩
    · refine matches_gpowerTable [] hQ (Nat.le_refl _) ?_
      change baseG ^ (plat.digitCount Q baseG - 1) < Q ∧ Q ≤ baseG ^ plat.digitCount Q baseG
      rw [exact.digitCount_eq]
      exact clog_enough hQ hbase
    · intro base table found
      cases found

theorem preCompute_members (plat : Platform) (signEval : Bool) (g : Gadget) :
    (preCompute plat signEval g).Q = g.Q ∧ (preCompute plat signEval g).baseG = g.baseG ∧
      (preCompute plat signEval g).digitsG = g.digitsG := by
  unfold preCompute
  split
  · exact (preComputeBase_fold plat baseGlist g).1
  · exact ⟨rfl, rfl, rfl⟩

theorem preCompute_matches_iff (exact : plat.Exact) {signEval : Bool} {Q baseG : ℕ} (positive : 0 < baseG) :
    (preCompute plat signEval ⟨Q, baseG, plat.digitCount Q baseG, [], []⟩).Matches ↔ Served signEval Q baseG := by
  refine ⟨fun good => ?_, fun served => (preCompute_tabulated exact served).inUse⟩
  obtain ⟨sameQ, sameBase, sameDigits⟩ :=
    preCompute_members plat signEval ⟨Q, baseG, plat.digitCount Q baseG, [], []⟩
  have enough := good.enough
  rw [sameQ, sameBase, sameDigits] at enough
  change baseG ^ (plat.digitCount Q baseG - 1) < Q ∧ Q ≤ baseG ^ plat.digitCount Q baseG at enough
  have hQ : 1 < Q := Nat.lt_of_le_of_lt (Nat.one_le_pow _ _ positive) enough.1
  refine ⟨hQ, ?_, ?_⟩
  · by_contra small
    obtain rfl : baseG = 1 := by omega
    rw [one_pow, one_pow] at enough
    omega
  · rintro rfl
    by_contra missing
    have power := (preComputeBase_fold plat baseGlist ⟨Q, baseG, plat.digitCount Q baseG, [], []⟩).2.1
    rw [if_neg missing] at power
    exact not_matches_of_empty (Nat.lt_of_lt_of_eq hQ sameQ.symm) power good

/-- `load` runs `PreCompute` without sign evaluation, for the base and the digits that were saved. -/
theorem Tabulated.reload (tabulated : g.Tabulated plat) :
    (preCompute plat false ⟨g.Q, g.baseG, g.digitsG, [], []⟩).Tabulated plat := by
  refine ⟨tabulated.large, ?_, ?_⟩
  · exact matches_gpowerTable [] tabulated.large (Nat.le_refl _) tabulated.inUse.enough
  · intro base table found
    cases found

end Gadget

/-! ### Creations and histories -/

namespace Creation

/-- The overload with plain numbers always prepares for sign evaluation, so it needs a base of the list. -/
def Serves : Creation → Prop
  | numbers _ _ _ Q _ _ baseG _ _ _ _ => 1 < Q ∧ baseG ∈ Gadget.baseGlist
  | precision .. => True
  | paramSet .. => True
  | contextParams params _ => 2 ≤ params.gadgetBase

end Creation

namespace RingGSWCryptoParams
open Gadget
variable {w : NativeSize} {plat : Platform} {r : RingGSWCryptoParams}

/-- Where the gadget of a new object comes from. -/
def BuiltFrom (plat : Platform) (signEval : Bool) (Q baseG : ℕ) (r : RingGSWCryptoParams) : Prop :=
  0 < baseG ∧ r.toGadget = Gadget.preCompute plat signEval ⟨Q, baseG, plat.digitCount Q baseG, [], []⟩

theorem construct_builtFrom {N Q q baseG baseR : ℕ} {method : Method} {std : ℚ} {keyDist : SecretKeyDist}
    {signEval : Bool} {numAutoKeys : ℕ}
    (h : construct plat N Q q baseG baseR method std keyDist signEval numAutoKeys = .ok r) :
    BuiltFrom plat signEval Q baseG r := by
  unfold construct at h
  obtain ⟨polyParams, -, h⟩ := Run.bind_ok h
  split at h
  · cases h
  · rename_i power
    split at h
    · cases h
    · cases h
      obtain ⟨k, rfl⟩ := not_not.mp power
      exact ⟨Nat.two_pow_pos k, rfl⟩

theorem BuiltFrom.matches_iff (exact : plat.Exact) {signEval : Bool} {Q baseG : ℕ}
    (built : BuiltFrom plat signEval Q baseG r) : r.toGadget.Matches ↔ Served signEval Q baseG := by
  rw [built.2]
  exact preCompute_matches_iff exact built.1

theorem BuiltFrom.tabulated (exact : plat.Exact) {signEval : Bool} {Q baseG : ℕ}
    (built : BuiltFrom plat signEval Q baseG r) (served : Served signEval Q baseG) : r.toGadget.Tabulated plat := by
  rw [built.2]
  exact preCompute_tabulated exact served

end RingGSWCryptoParams

namespace Creation
open Gadget RingGSWCryptoParams
variable {w : NativeSize} {plat : Platform} {P : BinFHECryptoParams} {r : RingGSWCryptoParams}

theorem two_le_gadgetBase {set : ParamSet} {params : BinFHEContextParams} (h : paramsMap set = some params) :
    2 ≤ params.gadgetBase := by
  cases set <;> cases h <;> decide

theorem eleven_le_of_checked {set : ParamSet} {logQ : ℕ} {method : Method} {u : Unit}
    (h : checkPrecision set logQ method = .ok u) : 11 ≤ logQ := by
  by_contra small
  have refused : logQ < 11 := by omega
  unfold checkPrecision at h
  simp only [refused, if_true] at h
  split_ifs at h <;> cases h

theorem served_precision {logQ : ℕ} (range : 11 ≤ logQ) (timeOptimization : Bool) {Q : ℕ} (prime : Q.Prime) :
    Served (logQ ≠ 11 && timeOptimization) Q (precisionBase logQ).1 := by
  refine ⟨prime.one_lt, ?_, ?_⟩
  · unfold precisionBase
    split_ifs <;> decide
  · intro signs
    unfold precisionBase
    split_ifs with h25 h16 h11
    · decide
    · decide
    · decide
    · -- the only precision left is 11, for which there is no sign evaluation
      obtain rfl : logQ = 11 := by omega
      cases signs

/-- Every overload that returns RingGSW parameters calls the constructor, with arguments it fills the table for
under the stated condition. -/
theorem run_built (exact : plat.Exact) {creation : Creation} (h : creation.run w plat = .ok P)
    (has : P.RGSWParams = some r) :
    ∃ signEval Q baseG, BuiltFrom plat signEval Q baseG r ∧ (Served signEval Q baseG ↔ creation.Serves) := by
  cases creation with
  | numbers n N q Q std baseKS baseG baseR keyDist method numAutoKeys =>
    obtain ⟨l, -, h⟩ := Run.bind_ok h
    obtain ⟨r', made, h⟩ := Run.bind_ok h
    cases h
    cases has
    refine ⟨true, Q, baseG, construct_builtFrom made, ?_⟩
    constructor
    · rintro ⟨hQ, -, listed⟩
      exact ⟨hQ, listed rfl⟩
    · rintro ⟨hQ, listed⟩
      exact ⟨hQ, by have := three_le_of_listed listed; omega, fun _ => listed⟩
  | precision set arbFunc logQ N method timeOptimization =>
    obtain ⟨_, checked, h⟩ := Run.bind_ok h
    obtain ⟨secure, -, h⟩ := Run.bind_ok h
    obtain ⟨Q, found, h⟩ := Run.bind_ok h
    obtain ⟨l, -, h⟩ := Run.bind_ok h
    obtain ⟨r', made, h⟩ := Run.bind_ok h
    cases h
    cases has
    exact ⟨_, _, _, construct_builtFrom made, iff_of_true (served_precision (eleven_le_of_checked checked) _ (exact.prime _ _ _ found)) trivial⟩
  | paramSet draw set method =>
    change ofParamSet w plat draw set method = .ok P at h
    unfold ofParamSet at h
    split at h
    · cases h
    · rename_i params listed
      obtain ⟨Q, found, h⟩ := Run.bind_ok h
      obtain ⟨l, -, h⟩ := Run.bind_ok h
      obtain ⟨mn, -, h⟩ := Run.bind_ok h
      obtain ⟨mk, -, h⟩ := Run.bind_ok h
      split at h
      · obtain ⟨u, -, h⟩ := Run.bind_ok h
        cases h
        cases has
      · split at h
        · obtain ⟨u, -, h⟩ := Run.bind_ok h
          cases h
          cases has
        · obtain ⟨r', made, h⟩ := Run.bind_ok h
          cases h
          cases has
          have served : Served false Q params.gadgetBase :=
            ⟨(exact.prime _ _ _ found).one_lt, two_le_gadgetBase listed, Bool.noConfusion⟩
          exact ⟨_, _, _, construct_builtFrom made, iff_of_true served trivial⟩
  | contextParams params method =>
    obtain ⟨Q, found, h⟩ := Run.bind_ok h
    obtain ⟨l, -, h⟩ := Run.bind_ok h
    obtain ⟨r', made, h⟩ := Run.bind_ok h
    cases h
    cases has
    refine ⟨false, Q, params.gadgetBase, construct_builtFrom made, ?_⟩
    constructor
    · rintro ⟨-, hbase, -⟩
      exact hbase
    · intro hbase
      exact ⟨(exact.prime _ _ _ found).one_lt, hbase, Bool.noConfusion⟩

end Creation

/-- `Change_BaseG`, or `save` followed by `load` into a new object. -/
inductive GadgetOp where
  | changeBaseG (base : ℕ)
  | saveAndLoad

namespace RingGSWCryptoParams
open Gadget
variable (plat : Platform)

def step (r : RingGSWCryptoParams) : GadgetOp → Except Fault RingGSWCryptoParams
  | .changeBaseG base => .ok { r with toGadget := r.toGadget.changeBaseG plat base }
  | .saveAndLoad => default.load plat r.save

/-- The base is in use already, or there is a table for it. -/
def Listed (r : RingGSWCryptoParams) : GadgetOp → Prop
  | .changeBaseG base => base = r.baseG ∨ base ∈ r.Gpower_map.keys
  | .saveAndLoad => True

def after (r : RingGSWCryptoParams) (ops : List GadgetOp) : Except Fault RingGSWCryptoParams := ops.foldlM (step plat) r

/-- The table serves the base at the start of the history and after each of its operations. -/
def AlwaysMatches (r : RingGSWCryptoParams) (ops : List GadgetOp) : Prop :=
  ∀ before, before <+: ops → ∃ r', after plat r before = .ok r' ∧ r'.toGadget.Matches

def EveryBaseListed (r : RingGSWCryptoParams) (ops : List GadgetOp) : Prop :=
  ∀ before op, before ++ [op] <+: ops → ∀ r', after plat r before = .ok r' → Listed r' op

variable {plat} {r r' : RingGSWCryptoParams} {op : GadgetOp} {ops : List GadgetOp}

theorem load_save (plat : Platform) (r : RingGSWCryptoParams) :
    ∃ r', default.load plat r.save = .ok r' ∧
      r'.toGadget = Gadget.preCompute plat false ⟨r.Q, r.baseG, r.digitsG, [], []⟩ :=
  ⟨_, rfl, rfl⟩

theorem exists_step (plat : Platform) (r : RingGSWCryptoParams) (op : GadgetOp) : ∃ r', step plat r op = .ok r' := by
  cases op with
  | changeBaseG base => exact ⟨_, rfl⟩
  | saveAndLoad => exact ⟨_, rfl⟩

theorem after_cons (once : step plat r op = .ok r') (ops : List GadgetOp) : after plat r (op :: ops) = after plat r' ops := by
  rw [after, List.foldlM_cons, once]
  rfl

theorem alwaysMatches_cons (once : step plat r op = .ok r') :
    AlwaysMatches plat r (op :: ops) ↔ r.toGadget.Matches ∧ AlwaysMatches plat r' ops := by
  constructor
  · intro always
    refine ⟨?_, fun before part => ?_⟩
    · obtain ⟨_, start, good⟩ := always [] List.nil_prefix
      cases start
      exact good
    · rw [← after_cons once]
      exact always (op :: before) (List.cons_prefix_cons.mpr ⟨rfl, part⟩)
  · rintro ⟨good, rest⟩ before part
    obtain rfl | ⟨later, rfl, laterPart⟩ := List.prefix_cons_iff.mp part
    · exact ⟨r, rfl, good⟩
    · rw [after_cons once]
      exact rest later laterPart

theorem everyBaseListed_cons (once : step plat r op = .ok r') :
    EveryBaseListed plat r (op :: ops) ↔ Listed r op ∧ EveryBaseListed plat r' ops := by
  constructor
  · intro every
    refine ⟨every [] op (List.cons_prefix_cons.mpr ⟨rfl, List.nil_prefix⟩) r rfl, ?_⟩
    intro before next part
    rw [← after_cons once]
    exact every (op :: before) next (List.cons_prefix_cons.mpr ⟨rfl, part⟩)
  · rintro ⟨listed, rest⟩ before next part r₁ reached
    cases before with
    | nil =>
      cases reached
      rw [(List.cons_prefix_cons.mp part).1]
      exact listed
    | cons first before =>
      obtain ⟨rfl, laterPart⟩ := List.cons_prefix_cons.mp part
      rw [after_cons once] at reached
      exact rest before next laterPart r₁ reached

theorem everyBaseListed_nil : EveryBaseListed plat r [] := by
  intro before op part
  have := part.length_le
  simp at this

theorem step_tabulated (tabulated : r.toGadget.Tabulated plat) (listed : Listed r op) (once : step plat r op = .ok r') :
    r'.toGadget.Tabulated plat := by
  cases op with
  | changeBaseG base =>
    cases once
    exact tabulated.changeBaseG listed
  | saveAndLoad =>
    obtain ⟨r₁, loaded, gadget⟩ := load_save plat r
    obtain rfl : r₁ = r' := Except.ok.inj (loaded.symm.trans once)
    rw [gadget]
    exact tabulated.reload

theorem listed_of_matches (large : 1 < r.Q) (once : step plat r op = .ok r') (good : r'.toGadget.Matches) : Listed r op := by
  cases op with
  | changeBaseG base =>
    cases once
    by_contra missing
    obtain ⟨other, absent⟩ := not_or.mp missing
    exact changeBaseG_not_matches large other absent good
  | saveAndLoad => trivial

/-- A whole history: induction on the operations still to come, with right tables before the first of them. -/
theorem alwaysMatches_iff_listed (tabulated : r.toGadget.Tabulated plat) :
    AlwaysMatches plat r ops ↔ EveryBaseListed plat r ops := by
  induction ops generalizing r with
  | nil =>
    refine iff_of_true ?_ everyBaseListed_nil
    intro before part
    rw [List.prefix_nil.mp part]
    exact ⟨r, rfl, tabulated.inUse⟩
  | cons op ops ih =>
    obtain ⟨r', once⟩ := exists_step plat r op
    rw [alwaysMatches_cons once, everyBaseListed_cons once]
    constructor
    · rintro ⟨-, rest⟩
      obtain ⟨_, start, good⟩ := rest [] List.nil_prefix
      cases start
      have listed := listed_of_matches tabulated.large once good
      exact ⟨listed, (ih (step_tabulated tabulated listed once)).mp rest⟩
    · rintro ⟨listed, rest⟩
      exact ⟨tabulated.inUse, (ih (step_tabulated tabulated listed once)).mpr rest⟩

/-- `GetGPower()` serves `GetBaseG()` through a whole history of the parameters of a new context exactly when the
overload got a base that its constructor tabulates and every change goes to a base with a table. -/
theorem gadget_table_iff (w : NativeSize) (exact : plat.Exact) {creation : Creation} {P : BinFHECryptoParams}
    (created : creation.run w plat = .ok P) (has : P.RGSWParams = some r) (ops : List GadgetOp) :
    AlwaysMatches plat r ops ↔ creation.Serves ∧ EveryBaseListed plat r ops := by
  obtain ⟨signEval, Q, baseG, built, serves⟩ := Creation.run_built exact created has
  constructor
  · intro always
    obtain ⟨_, start, good⟩ := always [] List.nil_prefix
    cases start
    have served := (built.matches_iff exact).mp good
    exact ⟨serves.mp served, (alwaysMatches_iff_listed (built.tabulated exact served)).mp always⟩
  · rintro ⟨ok, listed⟩
    exact (alwaysMatches_iff_listed (built.tabulated exact (serves.mpr ok))).mpr listed

theorem BuiltFrom.mem_keys {Q baseG base : ℕ} (built : BuiltFrom plat true Q baseG r) (listed : base ∈ baseGlist) :
    base ∈ r.Gpower_map.keys := by
  by_contra missing
  have entry := (preComputeBase_fold plat baseGlist ⟨Q, baseG, plat.digitCount Q baseG, [], []⟩).2.2 base
  rw [if_pos listed] at entry
  have none := KeyMap.get?_eq_none missing
  rw [built.2, Gadget.preCompute, if_pos rfl, entry] at none
  cases none

/-- Exact logarithms. Parameters found by number theory are left out. -/
noncomputable def exactLogs : Platform where
  digitCount Q base := ⌈Real.log Q / Real.log base⌉₊
  signDigits Q _ := ⌈Real.log Q / 1⌉₊
  intermediatePrime _ _ := .error (.mathError "")
  findRingDim _ := .error (.mathError "")
  ilNativeParams order modulus := .ok ⟨order, modulus, 0⟩

theorem exactLogs_exact : exactLogs.Exact := ⟨fun _ _ => rfl, fun _ _ => rfl, fun _ _ _ h => nomatch h⟩

/-- The overload with plain numbers, for a gadget base. -/
def numbersWith (baseG : ℕ) : Creation := .numbers 64 512 512 12289 (19 / 10) 25 baseG 23 .UNIFORM_TERNARY .GINX 10

theorem numbersWith_created {baseG : ℕ} (power : baseG.isPowerOfTwo) :
    ∃ P r, (numbersWith baseG).run .w64 exactLogs = .ok P ∧ P.RGSWParams = some r ∧
      BuiltFrom exactLogs true 12289 baseG r := by
  obtain ⟨l, lwe⟩ : ∃ l, LWECryptoParams.construct .w64 64 512 512 12289 12289 (19 / 10) 25 .UNIFORM_TERNARY = .ok l :=
    ⟨_, rfl⟩
  obtain ⟨r, made⟩ : ∃ r, construct exactLogs 512 12289 512 baseG 23 .GINX (19 / 10) .UNIFORM_TERNARY true 10 = .ok r := by
    simp only [construct, power, not_true_eq_false, if_false]
    exact ⟨_, rfl⟩
  refine ⟨{ LWEParams := some l, RGSWParams := some r }, r, ?_, rfl, construct_builtFrom made⟩
  change ofNumbers .w64 exactLogs 64 512 512 12289 (19 / 10) 25 baseG 23 .UNIFORM_TERNARY .GINX 10 = _
  unfold ofNumbers
  rw [lwe, made]
  rfl

theorem seven_bits_not_tabulated :
    ∃ P r, (numbersWith (2 ^ 7)).run .w64 exactLogs = .ok P ∧ P.RGSWParams = some r ∧
      ¬ AlwaysMatches exactLogs r [] := by
  obtain ⟨P, r, created, has, built⟩ := numbersWith_created ⟨7, rfl⟩
  refine ⟨P, r, created, has, fun always => ?_⟩
  obtain ⟨_, start, good⟩ := always [] List.nil_prefix
  cases start
  have listed := ((built.matches_iff exactLogs_exact).mp good).2.2 rfl
  exact absurd listed (by decide)

theorem fourteen_bits_tabulated :
    ∃ P r, (numbersWith (2 ^ 14)).run .w64 exactLogs = .ok P ∧ P.RGSWParams = some r ∧
      AlwaysMatches exactLogs r [.changeBaseG (2 ^ 27), .saveAndLoad] := by
  obtain ⟨P, r, created, has, built⟩ := numbersWith_created ⟨14, rfl⟩
  refine ⟨P, r, created, has, (gadget_table_iff _ exactLogs_exact created has _).mpr ⟨⟨by decide, by decide⟩, ?_⟩⟩
  have listed : 2 ^ 27 ∈ r.Gpower_map.keys := built.mem_keys (by decide)
  rw [everyBaseListed_cons rfl, everyBaseListed_cons rfl]
  exact ⟨Or.inr listed, trivial, everyBaseListed_nil⟩

end RingGSWCryptoParams

end MultiKeyFHE
