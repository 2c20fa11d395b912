import MultiKeyFHE.Params.UniEnc
import MultiKeyFHE.Library.Run

/-!
# Parameters of the schemes

`LWECryptoParams`, `MNTRUCryptoParams`, `MKLWECryptoParams` and `RingGSWCryptoParams` with their constructors and
their `save` / `load`, and `BinFHECryptoParams`, which points to one object of each class or to none.
-/

namespace MultiKeyFHE
open NativeInteger

variable (w : NativeSize)

structure LWECryptoParams where
  q : ℕ
  Q : ℕ
  qKS : ℕ
  n : ℕ
  N : ℕ
  baseKS : ℕ
  keyDist : SecretKeyDist
  dggStd : ℚ
  ksDggStd : ℚ
  deriving DecidableEq, Repr

/-- `MNTRUCryptoParams` and `MKLWECryptoParams`, which have the same members. -/
structure MultiUserParams extends LWECryptoParams where
  k : ℕ
  deriving DecidableEq, Repr

abbrev MNTRUCryptoParams : Type := MultiUserParams
abbrev MKLWECryptoParams : Type := MultiUserParams

namespace LWECryptoParams

/-- `LWECryptoParams() = default`. A generator is made with deviation two. -/
def default : LWECryptoParams := ⟨0, 0, 0, 0, 0, 0, .UNIFORM_TERNARY, 2, 2⟩

/-- The constructor of all three classes. They differ in the name that the messages give the scheme. -/
def constructFor (scheme : String) (n N q Q q_KS : ℕ) (std : ℚ) (baseKS : ℕ) (keyDist : SecretKeyDist) :
    Except Fault LWECryptoParams := do
  if n = 0 then throw (.configError "m_n (lattice parameter) can not be zero")
  if N = 0 then throw (.configError "m_N (ring dimension) can not be zero")
  if q = 0 then throw (.configError ("m_q (modulus for additive " ++ scheme ++ ") can not be zero"))
  if Q = 0 then throw (.configError ("m_Q (modulus for RingGSW/R" ++ scheme ++ ") can not be zero"))
  if q_KS = 0 then throw (.configError "q_KS (modulus for key switching) can not be zero")
  if baseKS = 0 then throw (.configError "m_baseKS (the base used for key switching) can not be zero")
  if modulusTooLarge w Q then throw (.configError "Q.GetMSB() > MAX_MODULUS_SIZE")
  return ⟨q, Q, q_KS, n, N, baseKS, keyDist, std, std⟩

def construct : (n N q Q q_KS : ℕ) → (std : ℚ) → (baseKS : ℕ) → (keyDist : SecretKeyDist) → Except Fault LWECryptoParams :=
  constructFor w "LWE"

/-- What the constructor checks. -/
structure Checked (w : NativeSize) (P : LWECryptoParams) : Prop where
  n_ne : P.n ≠ 0
  N_ne : P.N ≠ 0
  q_ne : P.q ≠ 0
  Q_ne : P.Q ≠ 0
  qKS_ne : P.qKS ≠ 0
  baseKS_ne : P.baseKS ≠ 0
  Q_fits : ¬ modulusTooLarge w P.Q

theorem constructFor_checked {w : NativeSize} {scheme : String} {n N q Q q_KS baseKS : ℕ} {std : ℚ} {keyDist : SecretKeyDist}
    {P : LWECryptoParams} (made : constructFor w scheme n N q Q q_KS std baseKS keyDist = .ok P) :
    P.Checked w ∧ P.N = N ∧ P.Q = Q ∧ P.q = q := by
  obtain ⟨n_ne, made⟩ := Run.ite_ok made nofun
  obtain ⟨N_ne, made⟩ := Run.ite_ok made nofun
  obtain ⟨q_ne, made⟩ := Run.ite_ok made nofun
  obtain ⟨Q_ne, made⟩ := Run.ite_ok made nofun
  obtain ⟨qKS_ne, made⟩ := Run.ite_ok made nofun
  obtain ⟨baseKS_ne, made⟩ := Run.ite_ok made nofun
  obtain ⟨Q_fits, made⟩ := Run.ite_ok made nofun
  cases made
  exact ⟨⟨n_ne, N_ne, q_ne, Q_ne, qKS_ne, baseKS_ne, Q_fits⟩, rfl, rfl, rfl⟩

structure Archive where
  n : ℕ
  N : ℕ
  q : ℕ
  Q : ℕ
  qKS : ℕ
  sigma : ℚ
  sigmaKS : ℚ
  bKS : ℕ

def save (p : LWECryptoParams) : ℕ × Archive :=
  (serializedVersion, ⟨p.n, p.N, p.q, p.Q, p.qKS, p.dggStd, p.ksDggStd, p.baseKS⟩)

/-- `load`, which leaves the key distribution of the target. -/
def load (t : LWECryptoParams) : ℕ × Archive → Except Fault LWECryptoParams
  | (version, ar) => do
    checkVersion version
    return ⟨ar.q, ar.Q, ar.qKS, ar.n, ar.N, ar.bKS, t.keyDist, ar.sigma, ar.sigmaKS⟩

end LWECryptoParams

namespace MultiUserParams

def default : MultiUserParams := { LWECryptoParams.default with k := 0 }

def constructFor (scheme : String) (k n N q Q q_KS : ℕ) (std : ℚ) (baseKS : ℕ) (keyDist : SecretKeyDist) :
    Except Fault MultiUserParams := do
  if k = 0 then throw (.configError "m_k (number of users) can not be zero")
  return { ← LWECryptoParams.constructFor w scheme n N q Q q_KS std baseKS keyDist with k }

def save (p : MultiUserParams) : ℕ × ℕ × LWECryptoParams.Archive := (serializedVersion, p.k, p.toLWECryptoParams.save.2)

def load (t : MultiUserParams) : ℕ × ℕ × LWECryptoParams.Archive → Except Fault MultiUserParams
  | (version, k, ar) => do return { ← t.toLWECryptoParams.load (version, ar) with k }

end MultiUserParams

/-! ### RingGSW -/

structure RingGSWCryptoParams extends Gadget where
  q : ℕ
  N : ℕ
  baseR : ℕ
  dggStd : ℚ
  polyParams : Option ILNativeParams
  method : Method
  keyDist : SecretKeyDist
  numAutoKeys : ℕ
  deriving DecidableEq, Repr

/-- The members are those of `RingGSWCryptoParams`. No context creates such an object. -/
abbrev VectorNTRUCryptoParams : Type := RingGSWCryptoParams

namespace RingGSWCryptoParams
variable (plat : Platform)

def default : RingGSWCryptoParams where
  Q := 0
  baseG := 0
  digitsG := 0
  Gpower := []
  Gpower_map := []
  q := 0
  N := 0
  baseR := 0
  dggStd := 2
  polyParams := none
  method := .INVALID_METHOD
  keyDist := .UNIFORM_TERNARY
  numAutoKeys := 0

/-- The constructor. Of the tables only the gadget powers have a reader here. -/
def construct (N Q q baseG baseR : ℕ) (method : Method) (std : ℚ) (keyDist : SecretKeyDist) (signEval : Bool)
    (numAutoKeys : ℕ) : Except Fault RingGSWCryptoParams := do
  let polyParams ← plat.ilNativeParams (2 * N % 2 ^ 32) Q
  if ¬ baseG.isPowerOfTwo then .error (.configError "Gadget base should be a power of two.")
  else if method = .LMKCDEY ∧ numAutoKeys = 0 then
    .error (.configError "numAutoKeys should be greater than 0.")
  else
    let gadget : Gadget := ⟨Q, baseG, plat.digitCount Q baseG, [], []⟩
    .ok { gadget.preCompute plat signEval with
      q, N, baseR, method, keyDist, numAutoKeys
      dggStd := std
      polyParams := some polyParams }

structure Archive where
  bN : ℕ
  bQ : ℕ
  bq : ℕ
  bR : ℕ
  bG : ℕ
  bmethod : Method
  bs : ℚ
  bdigitsG : ℕ
  bparams : Option ILNativeParams
  numAutoKeys : ℕ

def save (p : RingGSWCryptoParams) : ℕ × Archive :=
  (serializedVersion,
    ⟨p.N, p.Q, p.q, p.baseR, p.baseG, p.method, p.dggStd, p.digitsG, p.polyParams, p.numAutoKeys⟩)

def load (t : RingGSWCryptoParams) : ℕ × Archive → Except Fault RingGSWCryptoParams
  | (version, ar) => do
    checkVersion version
    let gadget : Gadget := ⟨ar.bQ, ar.bG, ar.bdigitsG, t.Gpower, t.Gpower_map⟩
    return { gadget.preCompute plat false with
      q := ar.bq, N := ar.bN, baseR := ar.bR, dggStd := ar.bs, polyParams := ar.bparams, method := ar.bmethod
      keyDist := t.keyDist, numAutoKeys := ar.numAutoKeys }

end RingGSWCryptoParams

/-! ### All parameters of a context -/

structure BinFHECryptoParams where
  LWEParams : Option LWECryptoParams := none
  RGSWParams : Option RingGSWCryptoParams := none
  VNTRUParams : Option VectorNTRUCryptoParams := none
  MNTRUParams : Option MNTRUCryptoParams := none
  MKLWEParams : Option MKLWECryptoParams := none
  UniEncParams : Option UniEncCryptoParams := none
  deriving DecidableEq, Repr

end MultiKeyFHE
