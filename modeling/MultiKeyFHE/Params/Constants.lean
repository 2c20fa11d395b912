import MultiKeyFHE.Native.Integer

/-!
# Enumerations

The enumerations of `binfhe-constants.h` and `constants-lattice.h`, and the version test of the archives.
-/

namespace MultiKeyFHE

inductive Method where
  | INVALID_METHOD | AP | GINX | LMKCDEY | MKNTRU | MKNTRU_B | MKNTRU_LWE
  deriving DecidableEq, Repr

inductive SecretKeyDist where
  | GAUSSIAN | UNIFORM_TERNARY | SPARSE_TERNARY | BINARY
  deriving DecidableEq, Repr

inductive BinGate where
  | OR | AND | NOR | NAND | XOR_FAST | XNOR_FAST | MAJORITY | AND3 | OR3 | AND4 | OR4 | CMUX | XOR | XNOR
  deriving DecidableEq, Repr

/-- The gates of two inputs as functions of two bits; the others take three or four. -/
def BinGate.truthTable : BinGate → Option (Bool → Bool → Bool)
  | OR => some fun a b => a || b
  | AND => some fun a b => a && b
  | NOR => some fun a b => !(a || b)
  | NAND => some fun a b => !(a && b)
  | XOR_FAST | XOR => some fun a b => a ^^ b
  | XNOR_FAST | XNOR => some fun a b => !(a ^^ b)
  | MAJORITY | AND3 | OR3 | AND4 | OR4 | CMUX => none

inductive KeygenMode where
  | SYM_ENCRYPT | PUB_ENCRYPT
  deriving DecidableEq, Repr

namespace Method

/-- The methods whose parameters hold the table of `X^m - 1`. -/
def usesMonomials : Method → Bool
  | GINX | MKNTRU | MKNTRU_B | MKNTRU_LWE => true
  | _ => false

end Method

def serializedVersion : ℕ := 1

/-- The head of every `load`. -/
def checkVersion (version : ℕ) : Except Fault Unit :=
  if version > serializedVersion then
    .error (.deserializeError ("serialized object version " ++ toString version ++
      " is from a later version of the library"))
  else .ok ()

end MultiKeyFHE
