import MultiKeyFHE.Transform.Cache

/-!
# Polynomials with their format

`PolyImpl` over native vectors: the parameters, the format and the values behind a pointer. The same vector is a
list of coefficients or of evaluations, and every operation works on the entries. A change of format goes through
the cache of transform tables; for orders that are not powers of two it goes through `ArbitrarySwitchFormat`, which is
a parameter here.
-/

namespace MultiKeyFHE
open NativeInteger InPlace NumberTheoreticTransform

inductive Format where
  | evaluation | coefficient
  deriving DecidableEq, Repr

structure ILParams where
  cyclotomicOrder : ℕ
  ringDimension : ℕ
  modulus : ℕ
  rootOfUnity : ℕ
  deriving DecidableEq, Repr

structure PolyImpl where
  params : ILParams
  format : Format
  values : Option WordVector
  deriving DecidableEq, Repr

namespace PolyImpl
variable (w : NativeSize) (c : Compiler)

/-- A polynomial initialized to zero. -/
def zero (params : ILParams) (format : Format) : PolyImpl :=
  ⟨params, format, some ⟨List.replicate params.ringDimension 0, params.modulus⟩⟩

/-- `*m_values`. -/
def getValues (a : PolyImpl) : Except Fault WordVector :=
  match a.values with
  | some values => .ok values
  | none => .error .nullDereference

def setValues (a : PolyImpl) (values : WordVector) (format : Format) : Except Fault PolyImpl :=
  if a.params.rootOfUnity = 0 then .error (.typeError "Polynomial has a 0 root of unity")
  else if a.params.ringDimension ≠ values.values.length ∨ a.params.modulus ≠ values.modulus then
    .error (.typeError "Parameter mismatch on SetValues for Polynomial")
  else .ok ⟨a.params, format, some values⟩

def plus (a rhs : PolyImpl) : Except Fault PolyImpl := do
  if a.params.ringDimension ≠ rhs.params.ringDimension then throw (.mathError "RingDimension missmatch")
  if a.params.modulus ≠ rhs.params.modulus then throw (.mathError "Modulus missmatch")
  if a.format ≠ rhs.format then throw (.notImplementedError "Format missmatch")
  let values ← (← a.getValues).modAddNoCheckEq w (← rhs.getValues)
  return { a with values := some values }

/-- `Plus` with a scalar. A constant has one coefficient, and the same value everywhere. -/
def plusScalar (a : PolyImpl) (element : ℕ) : Except Fault PolyImpl := do
  let values ← a.getValues
  let sum ← if a.format = .coefficient then values.modAddAtIndex w 0 element else values.modAddScalar w element
  a.setValues sum a.format

def minus (a rhs : PolyImpl) : Except Fault PolyImpl := do
  let difference ← (← a.getValues).modSub w (← rhs.getValues)
  a.setValues difference a.format

/-- `Minus` with a scalar does not look at the format. -/
def minusScalar (a : PolyImpl) (element : ℕ) : Except Fault PolyImpl := do
  let difference ← (← a.getValues).modSubScalar w element
  a.setValues difference a.format

def times (a rhs : PolyImpl) : Except Fault PolyImpl := do
  if a.params.ringDimension ≠ rhs.params.ringDimension then throw (.mathError "RingDimension missmatch")
  if a.params.modulus ≠ rhs.params.modulus then throw (.mathError "Modulus missmatch")
  if a.format ≠ .evaluation ∨ rhs.format ≠ .evaluation then
    throw (.notImplementedError "operator* for PolyImpl supported only in Format::EVALUATION")
  let values ← (← a.getValues).modMulNoCheckEq w (← rhs.getValues)
  return { a with values := some values }

def timesScalar (a : PolyImpl) (element : ℕ) : Except Fault PolyImpl := do
  let product ← (← a.getValues).modMulScalar w element
  a.setValues product a.format

/-- The word of a signed factor, of which only the absolute value is reduced. -/
def signedFactor (q : ℕ) (element : ℤ) : Except Fault ℕ := do
  let elementReduced := (|element| % 2 ^ w.bits).toNat
  let elementReduced ← if elementReduced > q then WordVector.modWord elementReduced q else pure elementReduced
  return if element < 0 then sub w q elementReduced else elementReduced

/-- `Times` with a signed word. -/
def timesSigned (a : PolyImpl) (element : ℤ) : Except Fault PolyImpl := do
  let factor ← signedFactor w a.params.modulus element
  let product ← (← a.getValues).modMulScalar w factor
  a.setValues product a.format

/-- `operator-=`. Without values it starts from zero. -/
def minusEq (a element : PolyImpl) : Except Fault PolyImpl := do
  let values := a.values.getD ⟨List.replicate a.params.ringDimension 0, a.params.modulus⟩
  let difference ← values.modSubEq w (← element.getValues)
  return { a with values := some difference }

def negate (a : PolyImpl) : Except Fault PolyImpl := (zero a.params a.format).minusEq w a

/-! ### Automorphisms -/

/-- One pass of the loop in `EVALUATION` format, with the index `jk` next to the result. It is a word of 32 bits. -/
def moveEvaluation (values : List ℕ) (logn k : ℕ) (now : List ℕ × ℕ) (j : ℕ) : Except Fault (List ℕ × ℕ) := do
  let mask := (1 <<< logn) - 1
  let jrev := NbTheory.reverseBits j logn
  let idxrev := NbTheory.reverseBits ((now.2 >>> 1) &&& mask) logn
  let value ← load .outOfRange values idxrev
  let result ← store .outOfRange now.1 jrev value
  return (result, (now.2 + 2 * k) % 2 ^ 32)

/-- One pass in `COEFFICIENT` format. A power of `X` that passes `X ^ n` changes its sign. -/
def moveCoefficient (q : ℕ) (values : List ℕ) (logn k : ℕ) (now : List ℕ × ℕ) (j : ℕ) : Except Fault (List ℕ × ℕ) := do
  let mask := (1 <<< logn) - 1
  let value ← load .outOfRange values j
  let value := if (now.2 >>> logn) &&& 0x1 ≠ 0 then sub w q value else value
  let result ← store .outOfRange now.1 (now.2 &&& mask) value
  return (result, (now.2 + k) % 2 ^ 32)

def permuteEvaluations (values : List ℕ) (n logn k : ℕ) : Except Fault (List ℕ) := do
  let last ← (List.range n).foldlM (moveEvaluation values logn k) (List.replicate n 0, k)
  return last.1

def permuteCoefficients (q : ℕ) (values : List ℕ) (n logn k : ℕ) : Except Fault (List ℕ) := do
  let last ← (List.range n).foldlM (moveCoefficient w q values logn k) (List.replicate n 0, 0)
  return last.1

def automorphismTransform (a : PolyImpl) (k : ℕ) : Except Fault PolyImpl := do
  let n := a.params.ringDimension
  let m := a.params.cyclotomicOrder
  if n ≠ m >>> 1 then
    throw (.notImplementedError "Automorphism Poly Format not EVALUATION or not power-of-two")
  if k % 2 = 0 then throw (.mathError "Automorphism index not odd\n")
  let logm := m.size - 1
  let logn := logm - 1
  let values ← a.getValues
  let result ← match a.format with
    | .evaluation => permuteEvaluations values.values n logn k
    | .coefficient => permuteCoefficients w a.params.modulus values.values n logn k
  return { a with values := some ⟨result, a.params.modulus⟩ }

/-- `AutomorphismTransform` with the indices of `PrecomputeAutoMap`. -/
def automorphismTransformPrecomp (a : PolyImpl) (k : ℕ) (precomp : List ℕ) : Except Fault PolyImpl := do
  if a.format ≠ .evaluation ∨ a.params.ringDimension ≠ a.params.cyclotomicOrder >>> 1 then
    throw (.notImplementedError "Automorphism Poly Format not EVALUATION or not power-of-two")
  if k % 2 = 0 then throw (.mathError "Automorphism index not odd\n")
  let values ← a.getValues
  let result ← (List.range a.params.ringDimension).mapM fun j => do
    let index ← load .outOfRange precomp j
    load .outOfRange values.values index
  return { a with values := some ⟨result, a.params.modulus⟩ }

def transpose (a : PolyImpl) : Except Fault PolyImpl :=
  if a.format = .coefficient then
    .error (.notImplementedError
      "PolyInterface element transposition is currently implemented only in the Evaluation representation.")
  else a.automorphismTransform w (a.params.cyclotomicOrder - 1)

/-! ### Changes of format -/

/-- What `ChineseRemainderTransformFTT` is asked for, and the format that results. -/
def formatTransform : Format → Transform × Format
  | .coefficient => (.forwardTransformToBitReverseInPlace, .evaluation)
  | .evaluation => (.inverseTransformFromBitReverseInPlace, .coefficient)

variable (arbitrarySwitchFormat : PolyImpl → Except Fault PolyImpl)

/-- `SwitchFormat`, with the cache that it leaves. -/
def switchFormat (a : PolyImpl) (cache : Cache) : Except Fault PolyImpl × Cache :=
  if a.params.ringDimension ≠ a.params.cyclotomicOrder >>> 1 then (arbitrarySwitchFormat a, cache)
  else
    match a.values with
    | none => (.error (.notAvailableError "Poly switch format to empty values"), cache)
    | some values =>
      let out := Call.step w c (.transform (formatTransform a.format).1 a.params.rootOfUnity a.params.cyclotomicOrder values
        ⟨[], 0⟩) cache
      ((fun transformed => { a with format := (formatTransform a.format).2, values := transformed }) <$> out.1, out.2)

end PolyImpl

namespace NbTheory

/-- `std::round(log2(x))`. -/
def roundLog2 (x : ℕ) : ℕ := if 2 ^ (2 * x.log2 + 1) ≤ x * x then x.log2 + 1 else x.log2

/-- `PrecomputeAutoMap`, which fills the vector it is given. -/
def precomputeAutoMap (n k : ℕ) (precomp : List ℕ) : Except Fault (List ℕ) :=
  let m := (n <<< 1) % 2 ^ 32
  let logm := roundLog2 m
  let logn := roundLog2 n
  (List.range n).foldlM (fun precomp j =>
    let jTmp := (j <<< 1) + 1
    let product := jTmp * k % 2 ^ 32
    let idx := (product - (product >>> logm) <<< logm) >>> 1
    let jrev := reverseBits j logn
    let idxrev := reverseBits idx logn
    store .outOfRange precomp jrev idxrev) precomp

end NbTheory
end MultiKeyFHE
