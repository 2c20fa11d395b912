import MultiKeyFHE.Params.Scheme
import MultiKeyFHE.Library.Run

/-!
# Creating a context

The four overloads of `BinFHEContext::GenerateBinFHEContext` and the constructor of `BinFHEScheme`. The multi-key
methods get their parameter objects only from the overload that takes a parameter set.
-/

namespace MultiKeyFHE
open NativeInteger

/-- `BINFHE_PARAMSET`, in the order of the source. -/
inductive ParamSet where
  | TOY | MEDIUM | STD128_LMKCDEY | STD128_AP | STD128 | STD192 | STD256 | STD128Q | STD128Q_LMKCDEY | STD192Q | STD256Q
  | STD128_3 | STD128_3_LMKCDEY | STD128Q_3 | STD128Q_3_LMKCDEY | STD192Q_3 | STD256Q_3 | STD128_4 | STD128_4_LMKCDEY
  | STD128Q_4 | STD128Q_4_LMKCDEY | STD192Q_4 | STD256Q_4 | SIGNED_MOD_TEST | P128T | P128G | P128T_2 | P128G_2
  | STD128_LMKCDEY_New | P192T | P192G
  | STD128_MKNTRU | STD128_MKNTRU_2 | STD128_MKNTRU_3 | STD128_MKNTRU_4
  | STD128_MKNTRU_LWE | STD128_MKNTRU_LWE_2 | STD128_MKNTRU_LWE_3 | STD128_MKNTRU_LWE_4
  | STD100_MKNTRU | STD100_MKNTRU_2 | STD100_MKNTRU_3 | STD100_MKNTRU_4
  | STD100_MKNTRU_LWE | STD100_MKNTRU_LWE_2 | STD100_MKNTRU_LWE_3 | STD100_MKNTRU_LWE_4
  deriving DecidableEq, Repr

structure BinFHEContextParams where
  numUser : ℕ
  numberBits : ℕ
  cyclOrder : ℕ
  latticeParam : ℕ
  mod : ℕ
  modKS : ℕ
  stdDev : ℚ
  baseKS : ℕ
  gadgetBase : ℕ
  baseRK : ℕ
  numAutoKeys : ℕ
  keyDist : SecretKeyDist
  deriving DecidableEq, Repr

def STD_DEV : ℚ := 19 / 10
def STD_NTRU : ℚ := 1 / 2
def STD_NTRU2 : ℚ := 3 / 4

open SecretKeyDist in
/-- `paramsMap`. A key switching modulus of zero is `PRIME`. -/
def paramsMap : ParamSet → Option BinFHEContextParams
  | .TOY => some ⟨1, 27, 1024, 64, 512, 0, STD_DEV, 25, 2 ^ 9, 23, 9, UNIFORM_TERNARY⟩
  | .MEDIUM => some ⟨1, 28, 2048, 422, 1024, 2 ^ 14, STD_DEV, 2 ^ 7, 2 ^ 10, 32, 10, UNIFORM_TERNARY⟩
  | .STD192 => some ⟨1, 37, 4096, 805, 1024, 2 ^ 15, STD_DEV, 32, 2 ^ 13, 32, 10, UNIFORM_TERNARY⟩
  | .STD256 => some ⟨1, 29, 4096, 990, 2048, 2 ^ 14, STD_DEV, 2 ^ 7, 2 ^ 8, 46, 10, UNIFORM_TERNARY⟩
  | .STD128Q => some ⟨1, 25, 2048, 534, 1024, 2 ^ 14, STD_DEV, 32, 2 ^ 7, 32, 10, UNIFORM_TERNARY⟩
  | .STD128Q_LMKCDEY => some ⟨1, 27, 2048, 448, 1024, 2 ^ 13, STD_DEV, 32, 2 ^ 9, 32, 10, GAUSSIAN⟩
  | .STD192Q => some ⟨1, 35, 4096, 875, 1024, 2 ^ 15, STD_DEV, 32, 2 ^ 12, 32, 10, UNIFORM_TERNARY⟩
  | .STD256Q => some ⟨1, 27, 4096, 1225, 1024, 2 ^ 16, STD_DEV, 16, 2 ^ 7, 32, 10, UNIFORM_TERNARY⟩
  | .STD128_3 => some ⟨1, 27, 2048, 541, 1024, 2 ^ 15, STD_DEV, 32, 2 ^ 7, 32, 10, UNIFORM_TERNARY⟩
  | .STD128_3_LMKCDEY => some ⟨1, 28, 2048, 485, 1024, 2 ^ 15, STD_DEV, 32, 2 ^ 10, 32, 10, GAUSSIAN⟩
  | .STD128Q_3_LMKCDEY => some ⟨1, 27, 2048, 524, 1024, 2 ^ 15, STD_DEV, 32, 2 ^ 9, 32, 10, GAUSSIAN⟩
  | .STD192Q_3 => some ⟨1, 34, 4096, 922, 2048, 2 ^ 16, STD_DEV, 16, 2 ^ 12, 32, 10, UNIFORM_TERNARY⟩
  | .STD256Q_3 => some ⟨1, 27, 4096, 1400, 4096, 2 ^ 16, STD_DEV, 21, 2 ^ 6, 32, 10, UNIFORM_TERNARY⟩
  | .STD128_4 => some ⟨1, 27, 2048, 541, 2048, 2 ^ 15, STD_DEV, 32, 2 ^ 7, 32, 10, UNIFORM_TERNARY⟩
  | .STD128_4_LMKCDEY => some ⟨1, 28, 2048, 522, 2048, 2 ^ 15, STD_DEV, 32, 2 ^ 10, 32, 10, GAUSSIAN⟩
  | .STD128Q_4 => some ⟨1, 50, 4096, 647, 2048, 2 ^ 16, STD_DEV, 16, 2 ^ 25, 32, 10, UNIFORM_TERNARY⟩
  | .STD128Q_4_LMKCDEY => some ⟨1, 27, 2048, 524, 2048, 2 ^ 15, STD_DEV, 32, 2 ^ 7, 32, 10, GAUSSIAN⟩
  | .STD192Q_4 => some ⟨1, 34, 4096, 980, 2048, 2 ^ 17, STD_DEV, 16, 2 ^ 12, 32, 10, UNIFORM_TERNARY⟩
  | .STD256Q_4 => some ⟨1, 27, 4096, 1625, 4096, 2 ^ 21, STD_DEV, 16, 2 ^ 6, 32, 10, UNIFORM_TERNARY⟩
  | .SIGNED_MOD_TEST => some ⟨1, 28, 2048, 512, 1024, 0, STD_DEV, 25, 2 ^ 7, 23, 10, UNIFORM_TERNARY⟩
  | .STD128_LMKCDEY => some ⟨1, 28, 2048, 446, 1024, 2 ^ 13, STD_DEV, 2 ^ 5, 2 ^ 10, 32, 10, GAUSSIAN⟩
  | .STD128_LMKCDEY_New => some ⟨1, 28, 2048, 446, 1024, 2 ^ 13, STD_DEV, 2 ^ 5, 2 ^ 7, 32, 10, GAUSSIAN⟩
  | .STD128_AP => some ⟨1, 27, 2048, 503, 1024, 2 ^ 14, STD_DEV, 2 ^ 5, 2 ^ 9, 32, 10, UNIFORM_TERNARY⟩
  | .STD128 => some ⟨1, 27, 2048, 503, 1024, 2 ^ 14, STD_DEV, 2 ^ 5, 2 ^ 9, 32, 10, UNIFORM_TERNARY⟩
  | .P128T => some ⟨1, 21, 2048, 512, 1024, 2 ^ 14, STD_NTRU, 32, 2 ^ 7, 32, 10, UNIFORM_TERNARY⟩
  | .P128G => some ⟨1, 21, 2048, 446, 1024, 2 ^ 14, STD_NTRU, 32, 2 ^ 7, 32, 10, GAUSSIAN⟩
  | .P128T_2 => some ⟨1, 21, 2048, 512, 1024, 2 ^ 14, STD_NTRU, 32, 2 ^ 6, 32, 10, UNIFORM_TERNARY⟩
  | .P128G_2 => some ⟨1, 21, 2048, 446, 1024, 2 ^ 14, STD_NTRU, 32, 2 ^ 5, 32, 10, GAUSSIAN⟩
  | .P192T => some ⟨1, 26, 4096, 1024, 1024, 2 ^ 17, STD_NTRU, 28, 2 ^ 9, 32, 10, UNIFORM_TERNARY⟩
  | .P192G => some ⟨1, 26, 4096, 805, 1024, 2 ^ 17, STD_NTRU, 28, 2 ^ 9, 32, 10, GAUSSIAN⟩
  | .STD128_MKNTRU => some ⟨2, 27, 4096, 765, 45181, 45181, STD_NTRU, 32, 2 ^ 7, 32, 10, UNIFORM_TERNARY⟩
  | .STD128_MKNTRU_2 => some ⟨4, 27, 4096, 765, 45181, 45181, STD_NTRU, 32, 2 ^ 7, 32, 10, UNIFORM_TERNARY⟩
  | .STD128_MKNTRU_3 => some ⟨8, 27, 4096, 765, 45181, 45181, STD_NTRU, 32, 2 ^ 6, 32, 10, UNIFORM_TERNARY⟩
  | .STD128_MKNTRU_4 => some ⟨16, 27, 4096, 765, 45181, 45181, STD_NTRU, 32, 2 ^ 5, 32, 10, UNIFORM_TERNARY⟩
  | .STD128_MKNTRU_LWE => some ⟨2, 27, 4096, 635, 32749, 32749, STD_DEV, 32, 2 ^ 9, 2, 10, BINARY⟩
  | .STD128_MKNTRU_LWE_2 => some ⟨4, 27, 4096, 635, 32749, 32749, STD_DEV, 32, 2 ^ 9, 2, 10, BINARY⟩
  | .STD128_MKNTRU_LWE_3 => some ⟨8, 27, 4096, 635, 32749, 32749, STD_DEV, 32, 2 ^ 9, 2, 10, BINARY⟩
  | .STD128_MKNTRU_LWE_4 => some ⟨16, 27, 4096, 635, 32749, 32749, STD_DEV, 32, 2 ^ 7, 2, 10, BINARY⟩
  | .STD100_MKNTRU => some ⟨2, 27, 4096, 560, 45181, 45181, STD_NTRU2, 32, 2 ^ 9, 32, 10, UNIFORM_TERNARY⟩
  | .STD100_MKNTRU_2 => some ⟨4, 27, 4096, 560, 45181, 45181, STD_NTRU2, 32, 2 ^ 9, 32, 10, UNIFORM_TERNARY⟩
  | .STD100_MKNTRU_3 => some ⟨8, 27, 4096, 560, 45181, 45181, STD_NTRU2, 32, 2 ^ 9, 32, 10, UNIFORM_TERNARY⟩
  | .STD100_MKNTRU_4 => some ⟨16, 27, 4096, 560, 45181, 45181, STD_NTRU2, 32, 2 ^ 9, 32, 10, UNIFORM_TERNARY⟩
  | .STD100_MKNTRU_LWE => some ⟨2, 27, 4096, 500, 32749, 32749, STD_DEV, 32, 2 ^ 9, 2, 10, BINARY⟩
  | .STD100_MKNTRU_LWE_2 => some ⟨4, 27, 4096, 500, 32749, 32749, STD_DEV, 32, 2 ^ 9, 2, 10, BINARY⟩
  | .STD100_MKNTRU_LWE_3 => some ⟨8, 27, 4096, 500, 32749, 32749, STD_DEV, 32, 2 ^ 9, 2, 10, BINARY⟩
  | .STD100_MKNTRU_LWE_4 => some ⟨16, 27, 4096, 500, 32749, 32749, STD_DEV, 32, 2 ^ 9, 2, 10, BINARY⟩
  | .STD128Q_3 => none

/-! ### The scheme object -/

inductive RingGSWAccumulatorKind where
  | DM | CGGI | LMKCDEY
  deriving DecidableEq, Repr

inductive UniEncAccumulatorKind where
  | XZW | XZW_B
  deriving DecidableEq, Repr

structure BinFHEScheme where
  ACCscheme : Option RingGSWAccumulatorKind := none
  UniEncACCscheme : Option UniEncAccumulatorKind := none
  deriving DecidableEq, Repr

def BinFHEScheme.construct : Method → Except Fault BinFHEScheme
  | .AP => .ok { ACCscheme := some .DM }
  | .GINX => .ok { ACCscheme := some .CGGI }
  | .LMKCDEY => .ok { ACCscheme := some .LMKCDEY }
  | .MKNTRU => .ok { UniEncACCscheme := some .XZW }
  | .MKNTRU_B | .MKNTRU_LWE => .ok { UniEncACCscheme := some .XZW_B }
  | .INVALID_METHOD => .error (.configError "method is invalid")

/-! ### The parameter objects of the overloads -/

namespace BinFHECryptoParams
variable (w : NativeSize) (plat : Platform)

def ofNumbers (n N q Q : ℕ) (std : ℚ) (baseKS baseG baseR : ℕ) (keyDist : SecretKeyDist) (method : Method)
    (numAutoKeys : ℕ) : Except Fault BinFHECryptoParams := do
  let lweparams ← LWECryptoParams.construct w n N q Q Q std baseKS .UNIFORM_TERNARY
  let rgswparams ← RingGSWCryptoParams.construct plat N Q q baseG baseR method std keyDist true numAutoKeys
  return { LWEParams := some lweparams, RGSWParams := some rgswparams }

/-- The tests that the overload for large precision makes first. -/
def checkPrecision (set : ParamSet) (logQ : ℕ) (method : Method) : Except Fault Unit := do
  if method ≠ .GINX then throw (.notImplementedError "ERROR: CGGI is the only supported method")
  if set ≠ .STD128 ∧ set ≠ .TOY then
    throw (.notImplementedError "ERROR: STD128 and TOY are the only supported sets")
  if logQ > 29 then throw (.notImplementedError "ERROR: logQ > 29 is not supported")
  if logQ < 11 then throw (.notImplementedError "ERROR: logQ < 11 is not supported")

def precisionBase (logQ : ℕ) : ℕ × ℕ :=
  if logQ > 25 then (2 ^ 14, 54)
  else if logQ > 16 then (2 ^ 18, 54)
  else if logQ > 11 then (2 ^ 27, 54)
  else (2 ^ 5, 27)

/-- The rest of that overload. -/
def ofPrecision (set : ParamSet) (arbFunc : Bool) (logQ : ℕ) (N : ℤ) (method : Method) (timeOptimization : Bool) :
    Except Fault BinFHECryptoParams := do
  let (baseG, logQprime) := precisionBase logQ
  let secure ← plat.findRingDim logQprime
  let ringDim := if N ≥ secure then N.toNat % 2 ^ 32 else secure
  let Q ← plat.intermediatePrime logQprime (2 * ringDim % 2 ^ 32)
  let q := if arbFunc then ringDim else 2 * ringDim % 2 ^ 32
  let n := if set = .TOY then 32 else 1305
  let lweparams ← LWECryptoParams.construct w n ringDim q Q (wrap w (2 ^ 35)) (319 / 100) 32 .UNIFORM_TERNARY
  let rgswparams ← RingGSWCryptoParams.construct plat ringDim Q q baseG 23 method (319 / 100) .UNIFORM_TERNARY
    (logQ ≠ 11 && timeOptimization) 10
  return { LWEParams := some lweparams, RGSWParams := some rgswparams }

def lweOf (params : BinFHEContextParams) (Q : ℕ) : Except Fault LWECryptoParams :=
  LWECryptoParams.construct w params.latticeParam (params.cyclOrder / 2) params.mod Q
    (if params.modKS = 0 then Q else params.modKS) params.stdDev params.baseKS params.keyDist

def multiUserOf (scheme : String) (params : BinFHEContextParams) (Q : ℕ) : Except Fault MultiUserParams :=
  MultiUserParams.constructFor w scheme params.numUser params.latticeParam (params.cyclOrder / 2) params.mod Q params.modKS
    params.stdDev params.baseKS params.keyDist

def rgswOf (params : BinFHEContextParams) (Q : ℕ) (method : Method) : Except Fault RingGSWCryptoParams :=
  RingGSWCryptoParams.construct plat (params.cyclOrder / 2) Q params.mod params.gadgetBase params.baseRK method
    params.stdDev params.keyDist false params.numAutoKeys

/-- The accumulator parameters, with the drawn reference polynomial. -/
def uniEncOf (draw : PolyValues) (params : BinFHEContextParams) (Q : ℕ) (method : Method) :
    Except Fault UniEncCryptoParams := do
  let polyParams ← plat.ilNativeParams (2 * (params.cyclOrder / 2) % 2 ^ 32) Q
  UniEncCryptoParams.construct w plat polyParams draw params.numUser (params.cyclOrder / 2) Q params.mod params.gadgetBase
    params.baseRK method params.keyDist false params.numAutoKeys

/-- The overload with a parameter set. It builds the objects of all schemes before it looks at the method. -/
def ofParamSet (draw : PolyValues) (set : ParamSet) (method : Method) : Except Fault BinFHECryptoParams := do
  match paramsMap set with
  | none => throw (.configError ("ERROR: Unknown parameter set [" ++ toString set.ctorIdx ++ "] for FHEW."))
  | some params =>
    let Q ← plat.intermediatePrime params.numberBits params.cyclOrder
    let lweparams ← lweOf w params Q
    let mntruparams ← multiUserOf w "MNTRU" params Q
    let mklweparams ← multiUserOf w "MKLWE" params Q
    if method = .MKNTRU ∨ method = .MKNTRU_B then
      let uniencparams ← uniEncOf w plat draw params Q method
      return { MNTRUParams := some mntruparams, UniEncParams := some uniencparams }
    else if method = .MKNTRU_LWE then
      let uniencparams ← uniEncOf w plat draw params Q method
      return { MKLWEParams := some mklweparams, UniEncParams := some uniencparams }
    else
      let rgswparams ← rgswOf plat params Q method
      return { LWEParams := some lweparams, RGSWParams := some rgswparams }

def ofContextParams (params : BinFHEContextParams) (method : Method) : Except Fault BinFHECryptoParams := do
  let Q ← plat.intermediatePrime params.numberBits params.cyclOrder
  let lweparams ← lweOf w params Q
  let rgswparams ← rgswOf plat params Q method
  return { LWEParams := some lweparams, RGSWParams := some rgswparams }

end BinFHECryptoParams

/-- A call of an overload of `GenerateBinFHEContext`. -/
inductive Creation where
  | numbers (n N q Q : ℕ) (std : ℚ) (baseKS baseG baseR : ℕ) (keyDist : SecretKeyDist) (method : Method)
      (numAutoKeys : ℕ)
  | precision (set : ParamSet) (arbFunc : Bool) (logQ : ℕ) (N : ℤ) (method : Method) (timeOptimization : Bool)
  | paramSet (draw : PolyValues) (set : ParamSet) (method : Method)
  | contextParams (params : BinFHEContextParams) (method : Method)

namespace Creation
open BinFHECryptoParams
variable (w : NativeSize) (plat : Platform)

def run : Creation → Except Fault BinFHECryptoParams
  | numbers n N q Q std baseKS baseG baseR keyDist method numAutoKeys =>
    ofNumbers w plat n N q Q std baseKS baseG baseR keyDist method numAutoKeys
  | precision set arbFunc logQ N method timeOptimization => do
    checkPrecision set logQ method
    ofPrecision w plat set arbFunc logQ N method timeOptimization
  | paramSet draw set method => ofParamSet w plat draw set method
  | contextParams params method => ofContextParams w plat params method

end Creation

namespace BinFHECryptoParams
variable (plat : Platform)

/-! ### What the overloads produce -/

/-- The gadget tables agree with the base in use, and nothing of the single-key NTRU scheme is there. -/
structure Generated (P : BinFHECryptoParams) : Prop where
  rgsw : ∀ r, P.RGSWParams = some r → r.toGadget.Consistent plat
  uniEnc : ∀ u, P.UniEncParams = some u → u.toGadget.Consistent plat
  vntru : P.VNTRUParams = none

variable {w : NativeSize} {plat}

theorem rgsw_consistent {N Q q baseG baseR : ℕ} {method : Method} {std : ℚ} {keyDist : SecretKeyDist} {signEval : Bool}
    {numAutoKeys : ℕ} {r : RingGSWCryptoParams}
    (h : RingGSWCryptoParams.construct plat N Q q baseG baseR method std keyDist signEval numAutoKeys = .ok r) :
    r.toGadget.Consistent plat := by
  unfold RingGSWCryptoParams.construct at h
  obtain ⟨polyParams, -, h⟩ := Run.bind_ok h
  split at h
  · cases h
  · split at h
    · cases h
    · cases h
      exact Gadget.preCompute_consistent signEval Q baseG

theorem uniEnc_consistent {draw : PolyValues} {params : BinFHEContextParams} {Q : ℕ} {method : Method}
    {u : UniEncCryptoParams} (h : uniEncOf w plat draw params Q method = .ok u) : u.toGadget.Consistent plat := by
  unfold uniEncOf at h
  obtain ⟨polyParams, -, h⟩ := Run.bind_ok h
  unfold UniEncCryptoParams.construct at h
  split at h
  · cases h
  · split at h
    · cases h
    · cases h
      exact Gadget.preCompute_consistent false Q params.gadgetBase

theorem generated_single {l : LWECryptoParams} {r : RingGSWCryptoParams} (consistent : r.toGadget.Consistent plat) :
    Generated plat { LWEParams := some l, RGSWParams := some r } where
  rgsw := by
    intro r' same
    cases same
    exact consistent
  uniEnc := by
    intro u none
    cases none
  vntru := rfl

theorem ofNumbers_generated {n N q Q : ℕ} {std : ℚ} {baseKS baseG baseR : ℕ} {keyDist : SecretKeyDist} {method : Method}
    {numAutoKeys : ℕ} {P : BinFHECryptoParams}
    (h : ofNumbers w plat n N q Q std baseKS baseG baseR keyDist method numAutoKeys = .ok P) : Generated plat P := by
  unfold ofNumbers at h
  obtain ⟨l, -, h⟩ := Run.bind_ok h
  obtain ⟨r, made, h⟩ := Run.bind_ok h
  cases h
  exact generated_single (rgsw_consistent made)

theorem ofPrecision_generated {set : ParamSet} {arbFunc : Bool} {logQ : ℕ} {N : ℤ} {method : Method}
    {timeOptimization : Bool} {P : BinFHECryptoParams}
    (h : ofPrecision w plat set arbFunc logQ N method timeOptimization = .ok P) : Generated plat P := by
  unfold ofPrecision at h
  obtain ⟨secure, -, h⟩ := Run.bind_ok h
  obtain ⟨Q, -, h⟩ := Run.bind_ok h
  obtain ⟨l, -, h⟩ := Run.bind_ok h
  obtain ⟨r, made, h⟩ := Run.bind_ok h
  cases h
  exact generated_single (rgsw_consistent made)

theorem ofContextParams_generated {params : BinFHEContextParams} {method : Method} {P : BinFHECryptoParams}
    (h : ofContextParams w plat params method = .ok P) : Generated plat P := by
  unfold ofContextParams at h
  obtain ⟨Q, -, h⟩ := Run.bind_ok h
  obtain ⟨l, -, h⟩ := Run.bind_ok h
  obtain ⟨r, made, h⟩ := Run.bind_ok h
  cases h
  exact generated_single (rgsw_consistent made)

theorem generated_multi {m l : Option MultiUserParams} {u : UniEncCryptoParams} (consistent : u.toGadget.Consistent plat) :
    Generated plat { MNTRUParams := m, MKLWEParams := l, UniEncParams := some u } where
  rgsw := by
    intro r none
    cases none
  uniEnc := by
    intro u' same
    cases same
    exact consistent
  vntru := rfl

theorem ofParamSet_generated {draw : PolyValues} {set : ParamSet} {method : Method} {P : BinFHECryptoParams}
    (h : ofParamSet w plat draw set method = .ok P) : Generated plat P := by
  unfold ofParamSet at h
  split at h
  · cases h
  · obtain ⟨Q, -, h⟩ := Run.bind_ok h
    obtain ⟨l, -, h⟩ := Run.bind_ok h
    obtain ⟨mn, -, h⟩ := Run.bind_ok h
    obtain ⟨mk, -, h⟩ := Run.bind_ok h
    split at h
    · obtain ⟨u, made, h⟩ := Run.bind_ok h
      cases h
      exact generated_multi (uniEnc_consistent made)
    · split at h
      · obtain ⟨u, made, h⟩ := Run.bind_ok h
        cases h
        exact generated_multi (uniEnc_consistent made)
      · obtain ⟨r, made, h⟩ := Run.bind_ok h
        cases h
        exact generated_single (rgsw_consistent made)

end BinFHECryptoParams
end MultiKeyFHE
