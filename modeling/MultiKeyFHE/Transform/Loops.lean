import MultiKeyFHE.Library.InPlace
import MultiKeyFHE.Native.Modular
import MultiKeyFHE.Native.Vector
import Mathlib.Data.ZMod.Basic
import Mathlib.Data.Nat.Log

/-!
# The transform loops

`NumberTheoreticTransformNat` of `transformnat-impl.h`: four forward and two backward transforms on the entries of
a vector, with one table of roots (Barrett products) or with a second one of prepared quotients (Shoup
products). Two of them peel a stage off. The notes of a run are the exact values of the sums the
butterflies form before they reduce.
-/

namespace MultiKeyFHE
open NativeInteger InPlace Butterfly

/-- Which branch of `#if defined(__GNUC__) && !defined(__clang__)` is compiled. -/
inductive Compiler where
  | gnu | other
  deriving DecidableEq, Repr

namespace NumberTheoreticTransform

/-- A vector in the middle of a transform. -/
abbrev Work := Tape ℕ ℤ

abbrev Wings := ℕ → ℕ → Outcome ℕ ℤ

variable (w : NativeSize) (c : Compiler) (modulus : ℕ)

/-- `loVal + omegaFactor` and `loVal - omegaFactor`, both reduced. -/
def forwardWings (loVal omegaFactor : ℕ) : Outcome ℕ ℤ :=
  match c with
  | .gnu =>
    let hiVal := add w loVal omegaFactor
    { low := if hiVal ≥ modulus then sub w hiVal modulus else hiVal
      high := sub w (if loVal < omegaFactor then add w loVal modulus else loVal) omegaFactor
      notes := (loVal + omegaFactor : ℤ) :: if loVal < omegaFactor then [(loVal + modulus : ℤ)] else [] }
  | .other =>
    let excess := if omegaFactor ≥ sub w modulus loVal then modulus else 0
    { low := add w loVal (sub w omegaFactor excess)
      high := sub w (if omegaFactor > loVal then add w loVal modulus else loVal) omegaFactor
      notes := (loVal + (omegaFactor - excess) : ℤ) ::
        if omegaFactor > loVal then [(loVal + modulus : ℤ)] else [] }

/-- `loVal + hiVal` and `loVal - hiVal`, both reduced. The difference still has to be multiplied. -/
def inverseWings (loVal hiVal : ℕ) : Outcome ℕ ℤ :=
  match c with
  | .gnu =>
    let sum := add w loVal hiVal
    { low := if sum ≥ modulus then sub w sum modulus else sum
      high := sub w (if loVal < hiVal then add w loVal modulus else loVal) hiVal
      notes := (loVal + hiVal : ℤ) :: if loVal < hiVal then [(loVal + modulus : ℤ)] else [] }
  | .other =>
    let excess := if hiVal ≥ sub w modulus loVal then modulus else 0
    { low := add w loVal (sub w hiVal excess)
      high := sub w (add w loVal (if hiVal > loVal then modulus else 0)) hiVal
      notes := [(loVal + (hiVal - excess) : ℤ), (loVal + (if hiVal > loVal then modulus else 0) : ℤ)] }

/-! ### Butterflies -/

def forwardBarrett (mu omega : ℕ) : Wings := fun loVal hiVal =>
  forwardWings w .gnu modulus loVal (modMulFastMu w hiVal omega modulus mu)

/-- Nothing is computed where the upper entry is zero. -/
def skipZero (wings : Wings) : Wings := fun loVal hiVal => if hiVal ≠ 0 then wings loVal hiVal else ⟨loVal, loVal, []⟩

def forwardShoup (omega preconOmega : ℕ) : Wings := fun loVal hiVal =>
  forwardWings w c modulus loVal (modMulFastConst w hiVal omega modulus preconOmega)

def inverseBarrett (mu omega : ℕ) : Wings := fun loVal hiVal =>
  let wings := inverseWings w .gnu modulus loVal hiVal
  { wings with high := modMulFastMu w wings.high omega modulus mu }

def inverseShoup (omega preconOmega : ℕ) : Wings := fun loVal hiVal =>
  let wings := inverseWings w c modulus loVal hiVal
  { wings with high := modMulFastConst w wings.high omega modulus preconOmega }

/-- The first backward stage, which multiplies both entries by `cycloOrderInv`. -/
def inverseShoupFirst (cycloOrderInv preconCycloOrderInv omega preconOmega : ℕ) : Wings := fun loVal hiVal =>
  let wings := inverseShoup w c modulus omega preconOmega loVal hiVal
  { wings with
    low := modMulFastConst w wings.low cycloOrderInv modulus preconCycloOrderInv
    high := modMulFastConst w wings.high cycloOrderInv modulus preconCycloOrderInv }

/-- Looks up the root of a block. -/
def withRoot (table : List ℕ) (wings : ℕ → Wings) (index : ℕ) : Except Fault Wings := do
  let omega ← load .outOfRange table index
  return wings omega

def withRoots (table preconTable : List ℕ) (wings : ℕ → ℕ → Wings) (index : ℕ) : Except Fault Wings := do
  let omega ← load .outOfRange table index
  let preconOmega ← load .outOfRange preconTable index
  return wings omega preconOmega

/-! ### Loops -/

/-- `for (m = 1; m < n; m <<= 1)` with `t` halved and `logt` lowered each time: pass `s` has `m = 2 ^ s`. -/
def forwardStages (fly : ℕ → Except Fault Wings) (n t : ℕ) (work : Work) : Except Fault Work :=
  (List.range (Nat.clog 2 n)).foldlM (fun work s => sweep .outOfRange fly (2 ^ s) (t >>> s) (t.size - s) work) work

/-- `for (; m >= 1; m >>= 1)` with `t` doubled and `logt` raised each time, from `m` and `t = 2 ^ (logt - 1)` on. -/
def inverseStages (fly : ℕ → Except Fault Wings) (m t logt : ℕ) (work : Work) : Except Fault Work :=
  (List.range m.size).foldlM (fun work s => sweep .outOfRange fly (m >>> s) (t <<< s) (logt + s) work) work

/-- `ForwardTransformToBitReverseInPlace(rootOfUnityTable, element)`. -/
def forwardTransformToBitReverseInPlace (rootOfUnityTable element : List ℕ) : Except Fault Work := do
  let n := element.length
  let mu ← computeMuChecked w modulus
  forwardStages (withRoot rootOfUnityTable (forwardBarrett w modulus mu)) n (n >>> 1) ⟨element, []⟩

/-- `ForwardTransformToBitReverse(element, rootOfUnityTable, result)`. The entries of `result` are overwritten. -/
def forwardTransformToBitReverse (element rootOfUnityTable : List ℕ) (resultLength : ℕ) : Except Fault Work := do
  let n := element.length
  if resultLength ≠ n then
    throw (.mathError "size of input element and size of output element not of same size")
  let mu ← computeMuChecked w modulus
  NativeVector.setModulus w modulus
  forwardStages (withRoot rootOfUnityTable fun omega => skipZero (forwardBarrett w modulus mu omega)) n (n >>> 1)
    ⟨element, []⟩

/-- Where the peeled last stage writes the upper entry. -/
def upperPlace (i t : ℕ) : ℕ :=
  match c with
  | .gnu => i + 1
  | .other => i + t

/-- The peeled last stage. Here `t` is what the stages before have made of `n`. -/
def lastStage (fly : ℕ → Except Fault Wings) (n : ℕ) (work : Work) : Except Fault Work :=
  let t := n >>> Nat.clog 2 n
  (List.range n).foldlM (fun work k => do
    let i := 2 * k
    let wings ← fly ((i >>> 1) + n)
    let omegaFactor ← load .outOfRange work.cells (i + 1)
    let loVal ← load .outOfRange work.cells i
    let cells ← store .outOfRange work.cells i (wings loVal omegaFactor).low
    let cells ← store .outOfRange cells (upperPlace c i t) (wings loVal omegaFactor).high
    return ⟨cells, work.notes ++ (wings loVal omegaFactor).notes⟩) work

/-- `ForwardTransformToBitReverseInPlace(rootOfUnityTable, preconRootOfUnityTable, element)`. -/
def forwardTransformToBitReverseInPlacePrecon (rootOfUnityTable preconRootOfUnityTable element : List ℕ) :
    Except Fault Work := do
  let n := element.length >>> 1
  let fly := withRoots rootOfUnityTable preconRootOfUnityTable (forwardShoup w c modulus)
  let work ← forwardStages fly n n ⟨element, []⟩
  lastStage c fly n work

/-- `ForwardTransformToBitReverse(element, rootOfUnityTable, preconRootOfUnityTable, result)`. -/
def forwardTransformToBitReversePrecon (element rootOfUnityTable preconRootOfUnityTable : List ℕ) (resultLength : ℕ) :
    Except Fault Work := do
  let n := element.length
  if resultLength ≠ n then
    throw (.mathError "size of input element and size of output element not of same size")
  NativeVector.setModulus w modulus
  forwardStages (withRoots rootOfUnityTable preconRootOfUnityTable fun omega preconOmega =>
    skipZero (forwardShoup w .gnu modulus omega preconOmega)) n (n >>> 1) ⟨element, []⟩

/-- `InverseTransformFromBitReverseInPlace(rootOfUnityInverseTable, cycloOrderInv, element)`. -/
def inverseTransformFromBitReverseInPlace (rootOfUnityInverseTable : List ℕ) (cycloOrderInv : ℕ) (element : List ℕ) :
    Except Fault Work := do
  let n := element.length
  let mu ← computeMuChecked w modulus
  let work ← inverseStages (withRoot rootOfUnityInverseTable (inverseBarrett w modulus mu)) (n >>> 1) 1 1 ⟨element, []⟩
  each .outOfRange (fun a => modMulFastMu w a cycloOrderInv modulus mu) n work

/-- The peeled first stage. -/
def firstStage (fly : ℕ → Except Fault Wings) (n : ℕ) (work : Work) : Except Fault Work :=
  (List.range ((n + 1) / 2)).foldlM (fun work k => do
    let i := 2 * k
    let wings ← fly ((i + n) >>> 1)
    pass .outOfRange wings i (i + 1) work) work

/-- `InverseTransformFromBitReverseInPlace(rootOfUnityInverseTable, preconRootOfUnityInverseTable, cycloOrderInv,
preconCycloOrderInv, element)`. -/
def inverseTransformFromBitReverseInPlacePrecon (rootOfUnityInverseTable preconRootOfUnityInverseTable : List ℕ)
    (cycloOrderInv preconCycloOrderInv : ℕ) (element : List ℕ) : Except Fault Work := do
  let n := element.length
  let work ← firstStage (withRoots rootOfUnityInverseTable preconRootOfUnityInverseTable
    (inverseShoupFirst w c modulus cycloOrderInv preconCycloOrderInv)) n ⟨element, []⟩
  inverseStages (withRoots rootOfUnityInverseTable preconRootOfUnityInverseTable (inverseShoup w c modulus))
    (n >>> 2) 2 2 work

/-! ### What the butterflies compute -/

/-- A modulus that `SetModulus` takes and for which the Barrett constant fits a word. -/
structure Suitable (w : NativeSize) (q : ℕ) : Prop where
  two_le : 2 ≤ q
  room : ¬ modulusTooLarge w q
  barrett : q ≠ 2 ^ (w.maxModulusSize - 1)

variable {w} {q : ℕ}

theorem Suitable.lt (suitable : Suitable w q) : q * 16 < 2 ^ w.bits := lt_of_not_tooLarge suitable.room

/-- The bound on the sums. -/
def Bounded (q : ℕ) (s : ℤ) : Prop := 0 ≤ s ∧ s < 2 * q

def residue (q a : ℕ) : ZMod q := a

/-- Both branches leave the reduced sum and the reduced difference. -/
structure Reduces (q a b : ℕ) (out : Outcome ℕ ℤ) : Prop where
  low : out.low = (a + b) % q
  high : out.high = (a + q - b) % q
  notes : ∀ s ∈ out.notes, Bounded q s

theorem reduced_sum {a b : ℕ} (ha : a < q) (hb : b < q) :
    (a + b) % q = if a + b ≥ q then a + b - q else a + b := by
  split
  · rw [Nat.mod_eq_sub_mod (by omega), Nat.mod_eq_of_lt (by omega)]
  · rw [Nat.mod_eq_of_lt (by omega)]

theorem reduced_difference {a b : ℕ} (ha : a < q) :
    (a + q - b) % q = if a < b then a + q - b else a - b := by
  split
  · rw [Nat.mod_eq_of_lt (by omega)]
  · rw [show a + q - b = a - b + q by omega, Nat.add_mod_right, Nat.mod_eq_of_lt (by omega)]

/-- Lowering the second operand first, through zero and back. -/
theorem add_sub_excess {a b : ℕ} (fits : 2 * q ≤ 2 ^ w.bits) (ha : a < q) (hb : b < q) :
    add w a (sub w b (if b ≥ sub w q a then q else 0)) = (a + b) % q := by
  rw [sub_of_le ha.le (by omega), reduced_sum ha hb]
  by_cases wraps : a + b ≥ q
  · rw [if_pos (by omega), if_pos wraps, sub, wrap_of_lt (by omega), add, wrap,
      show a + (b + 2 ^ w.bits - q) = a + b - q + 2 ^ w.bits by omega, Nat.add_mod_right, Nat.mod_eq_of_lt (by omega)]
  · rw [if_neg (by omega), if_neg wraps, sub_of_le (Nat.zero_le b) (by omega), Nat.sub_zero, add, wrap_of_lt (by omega)]

theorem excess_bounded {a b : ℕ} (fits : 2 * q ≤ 2 ^ w.bits) (ha : a < q) (hb : b < q) :
    Bounded q (a + (b - (if b ≥ sub w q a then q else 0 : ℕ))) := by
  rw [sub_of_le ha.le (by omega), Bounded]
  split <;> push_cast <;> omega

theorem forwardWings_reduces (c : Compiler) (fits : 2 * q ≤ 2 ^ w.bits) {a b : ℕ} (ha : a < q) (hb : b < q) :
    Reduces q a b (forwardWings w c q a b) := by
  have sum : add w a b = a + b := wrap_of_lt (by omega)
  have raised : add w a q = a + q := wrap_of_lt (by omega)
  have difference : sub w (if a < b then a + q else a) b = (a + q - b) % q := by
    rw [reduced_difference ha]
    split <;> exact sub_of_le (by omega) (by omega)
  cases c with
  | gnu =>
    refine ⟨?_, ?_, ?_⟩
    · simp only [forwardWings, sum, reduced_sum ha hb]
      split
      · exact sub_of_le (by omega) (by omega)
      · rfl
    · simpa only [forwardWings, raised] using difference
    · intro s hs
      simp only [forwardWings, List.mem_cons] at hs
      unfold Bounded
      rcases hs with rfl | hs
      · omega
      · split at hs
        · rw [List.mem_singleton] at hs
          omega
        · cases hs
  | other =>
    refine ⟨add_sub_excess fits ha hb, ?_, ?_⟩
    · simpa only [forwardWings, raised] using difference
    · intro s hs
      simp only [forwardWings, List.mem_cons] at hs
      rcases hs with rfl | hs
      · exact_mod_cast excess_bounded fits ha hb
      · unfold Bounded
        split at hs
        · rw [List.mem_singleton] at hs
          omega
        · cases hs

theorem inverseWings_reduces (c : Compiler) (fits : 2 * q ≤ 2 ^ w.bits) {a b : ℕ} (ha : a < q) (hb : b < q) :
    Reduces q a b (inverseWings w c q a b) := by
  cases c with
  | gnu => exact forwardWings_reduces .gnu fits ha hb
  | other =>
    refine ⟨add_sub_excess fits ha hb, ?_, ?_⟩
    · simp only [inverseWings, gt_iff_lt]
      rw [reduced_difference ha, NativeInteger.add]
      split <;> rw [wrap_of_lt (by omega)] <;> exact sub_of_le (by omega) (by omega)
    · intro s hs
      simp only [inverseWings, List.mem_cons, List.not_mem_nil, or_false] at hs
      rcases hs with rfl | rfl
      · exact_mod_cast excess_bounded fits ha hb
      · unfold Bounded
        split <;> push_cast <;> omega

theorem Reduces.low_lt {a b : ℕ} {out : Outcome ℕ ℤ} (reduces : Reduces q a b out) (pos : 0 < q) : out.low < q := by
  rw [reduces.low]
  exact Nat.mod_lt _ pos

theorem Reduces.high_lt {a b : ℕ} {out : Outcome ℕ ℤ} (reduces : Reduces q a b out) (pos : 0 < q) : out.high < q := by
  rw [reduces.high]
  exact Nat.mod_lt _ pos

theorem Reduces.residue_low {a b : ℕ} {out : Outcome ℕ ℤ} (reduces : Reduces q a b out) :
    residue q out.low = residue q a + residue q b := by
  rw [reduces.low, residue, ZMod.natCast_mod, Nat.cast_add]
  rfl

theorem Reduces.residue_high {a b : ℕ} {out : Outcome ℕ ℤ} (reduces : Reduces q a b out) (hb : b < q) :
    residue q out.high = residue q a - residue q b := by
  rw [reduces.high, residue, ZMod.natCast_mod, Nat.cast_sub (by omega), Nat.cast_add, ZMod.natCast_self, add_zero]
  rfl

/-- Multiplies by `omega` on reduced operands. -/
def Multiplies (q omega : ℕ) (mul : ℕ → ℕ) : Prop := ∀ a < q, mul a = a * omega % q

theorem Multiplies.lt {omega : ℕ} {mul : ℕ → ℕ} (multiplies : Multiplies q omega mul) {a : ℕ} (ha : a < q) :
    mul a < q := by
  rw [multiplies a ha]
  exact Nat.mod_lt _ (by omega)

theorem Multiplies.residue {omega : ℕ} {mul : ℕ → ℕ} (multiplies : Multiplies q omega mul) {a : ℕ} (ha : a < q) :
    residue q (mul a) = NumberTheoreticTransform.residue q omega * NumberTheoreticTransform.residue q a := by
  rw [multiplies a ha, NumberTheoreticTransform.residue, ZMod.natCast_mod, Nat.cast_mul, mul_comm]
  rfl

theorem multiplies_barrett (suitable : Suitable w q) {omega : ℕ} (h : omega < q) :
    Multiplies q omega fun a => modMulFastMu w a omega q (computeMu w q) := fun _ ha =>
  modMulFastMu_eq suitable.two_le suitable.room suitable.barrett ha h

/-- The prepared quotient of a table entry. -/
def quotient (w : NativeSize) (q b : ℕ) : ℕ := wrap w (b * 2 ^ w.bits / q)

theorem multiplies_shoup (suitable : Suitable w q) {omega : ℕ} (h : omega < q) :
    Multiplies q omega fun a => modMulFastConst w a omega q (quotient w q omega) := by
  intro a ha
  have := suitable.lt
  exact modMulFastConst_eq (by omega) h (by omega)

theorem refines_forward (c : Compiler) (fits : 2 * q ≤ 2 ^ w.bits) {omega : ℕ} {mul : ℕ → ℕ}
    (multiplies : Multiplies q omega mul) :
    Refines (· < q) (Bounded q) (residue q) (fun loVal hiVal => forwardWings w c q loVal (mul hiVal))
      (split (residue q omega)) := by
  have reduces : ∀ a b, a < q → b < q → Reduces q a (mul b) (forwardWings w c q a (mul b)) := fun a b ha hb =>
    forwardWings_reduces c fits ha (multiplies.lt hb)
  refine ⟨?_, ?_, ?_⟩
  · intro a b ha hb
    refine ⟨(reduces a b ha hb).low_lt (by omega), ?_⟩
    rw [(reduces a b ha hb).residue_low, multiplies.residue hb, split]
  · intro a b ha hb
    refine ⟨(reduces a b ha hb).high_lt (by omega), ?_⟩
    rw [(reduces a b ha hb).residue_high (multiplies.lt hb), multiplies.residue hb, split]
  · intro a b ha hb
    exact (reduces a b ha hb).notes

/-- An upper or lower entry may also be the modulus itself: the butterfly leaves entries up to the modulus again, with
the right residues. -/
theorem forwardWings_le (c : Compiler) (fits : 2 * q ≤ 2 ^ w.bits) {a b : ℕ} (ha : a ≤ q) (hb : b < q) :
    ((forwardWings w c q a b).low ≤ q ∧ residue q (forwardWings w c q a b).low = residue q a + residue q b) ∧
      (forwardWings w c q a b).high ≤ q ∧ residue q (forwardWings w c q a b).high = residue q a - residue q b := by
  have sum : (forwardWings w c q a b).low = if a + b ≥ q then a + b - q else a + b := by
    cases c with
    | gnu =>
      have word : add w a b = a + b := wrap_of_lt (by omega)
      simp only [forwardWings, word]
      split
      · exact sub_of_le (by omega) (by omega)
      · rfl
    | other =>
      simp only [forwardWings, sub_of_le ha (show q < 2 ^ w.bits by omega)]
      by_cases wraps : a + b ≥ q
      · rw [if_pos (by omega), if_pos wraps, sub, add, wrap_of_lt (show b + 2 ^ w.bits - q < 2 ^ w.bits by omega), wrap,
          show a + (b + 2 ^ w.bits - q) = a + b - q + 2 ^ w.bits by omega, Nat.add_mod_right, Nat.mod_eq_of_lt (by omega)]
      · rw [if_neg (by omega), if_neg wraps, sub_of_le (Nat.zero_le b) (by omega), Nat.sub_zero, add, wrap_of_lt (by omega)]
  have difference : (forwardWings w c q a b).high = if a < b then a + q - b else a - b := by
    have raised : a < b → add w a q = a + q := fun _ => wrap_of_lt (by omega)
    have high : (forwardWings w c q a b).high = sub w (if a < b then add w a q else a) b := by cases c <;> rfl
    rw [high]
    split
    · rename_i below
      rw [raised below]
      exact sub_of_le (by omega) (by omega)
    · exact sub_of_le (by omega) (by omega)
  refine ⟨⟨?_, ?_⟩, ?_, ?_⟩
  · rw [sum]
    split <;> omega
  · rw [sum, residue, residue, residue]
    split
    · rw [Nat.cast_sub (by omega), Nat.cast_add, ZMod.natCast_self, sub_zero]
    · rw [Nat.cast_add]
  · rw [difference]
    split <;> omega
  · rw [difference, residue, residue, residue]
    split
    · rw [Nat.cast_sub (by omega), Nat.cast_add, ZMod.natCast_self, add_zero]
    · rw [Nat.cast_sub (by omega)]

theorem refines_skipZero {wings : Wings} {omega : ZMod q}
    (refines : Refines (· < q) (Bounded q) (residue q) wings (split omega)) :
    Refines (· < q) (Bounded q) (residue q) (skipZero wings) (split omega) := by
  have zero : residue q 0 = 0 := Nat.cast_zero
  refine ⟨?_, ?_, ?_⟩
  · intro a b ha hb
    by_cases h : b ≠ 0
    · rw [skipZero, if_pos h]
      exact refines.low a b ha hb
    · rw [skipZero, if_neg h, not_not.mp h, split, zero, mul_zero, add_zero]
      exact ⟨ha, rfl⟩
  · intro a b ha hb
    by_cases h : b ≠ 0
    · rw [skipZero, if_pos h]
      exact refines.high a b ha hb
    · rw [skipZero, if_neg h, not_not.mp h, split, zero, mul_zero, sub_zero]
      exact ⟨ha, rfl⟩
  · intro a b ha hb
    by_cases h : b ≠ 0
    · rw [skipZero, if_pos h]
      exact refines.notes a b ha hb
    · rw [skipZero, if_neg h]
      intro s hs
      cases hs

theorem refines_inverse (c : Compiler) (fits : 2 * q ≤ 2 ^ w.bits) {omega : ℕ} {mul : ℕ → ℕ}
    (multiplies : Multiplies q omega mul) :
    Refines (· < q) (Bounded q) (residue q)
      (fun loVal hiVal => { inverseWings w c q loVal hiVal with high := mul (inverseWings w c q loVal hiVal).high })
      (join (residue q omega)) := by
  have reduces : ∀ a b, a < q → b < q → Reduces q a b (inverseWings w c q a b) := fun a b ha hb =>
    inverseWings_reduces c fits ha hb
  refine ⟨?_, ?_, ?_⟩
  · intro a b ha hb
    refine ⟨(reduces a b ha hb).low_lt (by omega), ?_⟩
    rw [(reduces a b ha hb).residue_low, join]
  · intro a b ha hb
    have high := (reduces a b ha hb).high_lt (by omega)
    refine ⟨multiplies.lt high, ?_⟩
    rw [multiplies.residue high, (reduces a b ha hb).residue_high hb, join]
  · intro a b ha hb
    exact (reduces a b ha hb).notes

/-- A backward butterfly whose entries are multiplied by a constant afterwards. -/
def joinScaled (n ω a b : ZMod q) : ZMod q × ZMod q := (n * (join ω a b).1, n * (join ω a b).2)

theorem refines_scaled {wings : Wings} {omega : ZMod q} {factor : ℕ} {mul : ℕ → ℕ}
    (refines : Refines (· < q) (Bounded q) (residue q) wings (join omega)) (multiplies : Multiplies q factor mul) :
    Refines (· < q) (Bounded q) (residue q)
      (fun loVal hiVal => { wings loVal hiVal with
        low := mul (wings loVal hiVal).low
        high := mul (wings loVal hiVal).high }) (joinScaled (residue q factor) omega) := by
  refine ⟨?_, ?_, refines.notes⟩
  · intro a b ha hb
    obtain ⟨below, value⟩ := refines.low a b ha hb
    refine ⟨multiplies.lt below, ?_⟩
    rw [multiplies.residue below, value, joinScaled]
  · intro a b ha hb
    obtain ⟨below, value⟩ := refines.high a b ha hb
    refine ⟨multiplies.lt below, ?_⟩
    rw [multiplies.residue below, value, joinScaled]

end NumberTheoreticTransform
end MultiKeyFHE
