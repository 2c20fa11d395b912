import MultiKeyFHE.Params.Gadget
import MultiKeyFHE.Native.Poly

/-!
# Parameters of the multi-key accumulator

`UniEncCryptoParams` of `mk-cryptoparameters.h` as the object that lives at run time: its tables are
plain vectors that `PreCompute` extends. `UniEncParams` adds what the constructor establishes.
-/

namespace MultiKeyFHE
open Negacyclic NegPoly NativeInteger

/-- A polynomial object: the modulus of its parameters and its coefficient values. -/
structure PolyValues where
  modulus : ℕ
  values : List ℕ
  deriving DecidableEq, Repr

namespace PolyValues

def toPoly {N Q : ℕ} (a : PolyValues) : NativePoly N Q := NativePoly.ofValues a.values

end PolyValues

/-- The members that the accumulators, the key generation and the serialization read. -/
structure UniEncCryptoParams extends Gadget where
  k : ℕ
  q : ℕ
  N : ℕ
  baseR : ℕ
  dggStd : ℚ
  dggRStd : ℚ
  polyParams : Option ILNativeParams
  monomials : List PolyValues
  method : Method
  keyDist : SecretKeyDist
  numAutoKeys : ℕ
  CRS : List PolyValues
  deriving DecidableEq, Repr

namespace UniEncCryptoParams
open Gadget
variable (w : NativeSize) (plat : Platform)

/-- `UniEncCryptoParams() = default`. A generator is made with deviation two. -/
def default : UniEncCryptoParams where
  k := 0
  Q := 0
  q := 0
  N := 0
  baseG := 0
  baseR := 0
  digitsG := 0
  Gpower := []
  dggStd := 2
  dggRStd := 2
  Gpower_map := []
  polyParams := none
  monomials := []
  method := .INVALID_METHOD
  keyDist := .UNIFORM_TERNARY
  numAutoKeys := 0
  CRS := []

/-! ### PreCompute -/

def monomialPos (N Q i : ℕ) : PolyValues :=
  ⟨Q, ((List.replicate N 0).modify 0 (modSubFast w · 1 Q)).modify i (modAddFast w · 1 Q)⟩

def monomialNeg (N Q i : ℕ) : PolyValues :=
  ⟨Q, ((List.replicate N 0).modify 0 (modSubFast w · 1 Q)).modify i (modSubFast w · 1 Q)⟩

def monomialTable (N Q : ℕ) : List PolyValues :=
  (List.range N).map (monomialPos w N Q) ++ (List.range N).map (monomialNeg w N Q)

/-- `PreCompute(signEval)`. The tables for the gate constants and for `LMKCDEY` have no reader here. -/
def preCompute (signEval : Bool) (p : UniEncCryptoParams) : UniEncCryptoParams :=
  { p with
    toGadget := p.toGadget.preCompute plat signEval
    monomials := p.monomials ++ if p.method.usesMonomials then monomialTable w p.N p.Q else [] }

/-- The constructor. `polyParams` is what `ILNativeParams(2 * N, Q)` builds and `draw` the one Gaussian
polynomial that every entry of the reference vector copies. -/
def construct (polyParams : ILNativeParams) (draw : PolyValues)
    (k N Q q baseG baseR : ℕ) (method : Method) (keyDist : SecretKeyDist) (signEval : Bool)
    (numAutoKeys : ℕ) : Except Fault UniEncCryptoParams :=
  if ¬ baseG.isPowerOfTwo then .error (.configError "Gadget base should be a power of two.")
  else if method = .LMKCDEY ∧ numAutoKeys = 0 then
    .error (.configError "numAutoKeys should be greater than 0.")
  else
    let digitsG := plat.digitCount Q baseG
    .ok (preCompute w plat signEval { default with
      k, Q, q, N, baseG, baseR, digitsG, method, keyDist, numAutoKeys
      polyParams := some polyParams
      dggStd := 1 / 4
      dggRStd := 3 / 20
      CRS := List.replicate (digitsG - 1) draw })

def getMonomial (p : UniEncCryptoParams) (i : ℕ) : Except Fault (NativePoly p.N p.Q) :=
  match p.monomials[i]? with
  | some a => .ok a.toPoly
  | none => .error .outOfRange

def gpow (p : UniEncCryptoParams) (i : ℕ) : ZMod p.Q := (p.Gpower.getD i 0 : ℕ)

def rootOfUnity (p : UniEncCryptoParams) : ZMod p.Q :=
  match p.polyParams with
  | some params => (params.rootOfUnity : ℕ)
  | none => 0

/-! ### Serialization -/

structure Archive where
  bk : ℕ
  bN : ℕ
  bQ : ℕ
  bq : ℕ
  bR : ℕ
  bG : ℕ
  bmethod : Method
  bs : ℚ
  bdigitsG : ℕ
  bparams : Option ILNativeParams
  numAutoKeys : ℕ

def save (p : UniEncCryptoParams) : ℕ × Archive :=
  (serializedVersion,
    { bk := p.k, bN := p.N, bQ := p.Q, bq := p.q, bR := p.baseR, bG := p.baseG, bmethod := p.method,
      bs := p.dggStd, bdigitsG := p.digitsG, bparams := p.polyParams, numAutoKeys := p.numAutoKeys })

/-- `load` into the object `t`: every member it does not read stays, and `PreCompute` runs on top. -/
def load (t : UniEncCryptoParams) : ℕ × Archive → Except Fault UniEncCryptoParams
  | (version, ar) => do
    checkVersion version
    return preCompute w plat false { t with
      k := ar.bk, N := ar.bN, Q := ar.bQ, q := ar.bq, baseR := ar.bR, baseG := ar.bG,
      method := ar.bmethod, dggStd := ar.bs, digitsG := ar.bdigitsG, polyParams := ar.bparams,
      numAutoKeys := ar.numAutoKeys }

/-! ### The tables -/

theorem monomialTable_length (N Q : ℕ) : (monomialTable w N Q).length = 2 * N := by
  simp [monomialTable]
  ring

variable {w plat}

theorem monomialTable_get_lt {N Q i : ℕ} (hi : i < N) :
    (monomialTable w N Q)[i]? = some (monomialPos w N Q i) := by
  rw [monomialTable, List.getElem?_append_left (by simpa using hi)]
  simp [hi]

theorem monomialTable_get_ge {N Q i : ℕ} (hi : N ≤ i) (hlt : i < 2 * N) :
    (monomialTable w N Q)[i]? = some (monomialNeg w N Q (i - N)) := by
  rw [monomialTable, List.getElem?_append_right (by simpa using hi)]
  simp only [List.length_map, List.length_range, List.getElem?_map]
  rw [List.getElem?_range (by omega), Option.map_some]

theorem getD_modify_modify {N i j : ℕ} (hj : j < N) (f g : ℕ → ℕ) :
    (((List.replicate N 0).modify 0 f).modify i g).getD j 0 =
      (if i = j then g else id) ((if 0 = j then f else id) 0) := by
  rw [List.getD_eq_getElem?_getD, List.getElem?_modify, List.getElem?_modify,
    List.getElem?_replicate_of_lt hj]
  split <;> split <;> simp

theorem sub_one_cast {Q a : ℕ} (hQ : 2 < Q) (hw : 2 * Q ≤ 2 ^ w.bits) (ha : a < Q) :
    ((modSubFast w a 1 Q : ℕ) : ZMod Q) = a - 1 := by
  have h := modSubFast_cast (w := w) ha (show 1 < Q by omega) (by omega)
  have := (ZMod.intCast_eq_intCast_iff _ _ Q).mpr h
  push_cast at this
  exact this

theorem add_one_cast {Q a : ℕ} (hQ : 2 < Q) (hw : 2 * Q ≤ 2 ^ w.bits) (ha : a < Q) :
    ((modAddFast w a 1 Q : ℕ) : ZMod Q) = a + 1 := by
  have h := modAddFast_cast (w := w) ha (show 1 < Q by omega) hw
  have := (ZMod.intCast_eq_intCast_iff _ _ Q).mpr h
  push_cast at this
  exact this

theorem toPoly_modify {N Q i : ℕ} {op : ℕ → ℕ} {c : ZMod Q} (hQ : 2 < Q) (hw : 2 * Q ≤ 2 ^ w.bits)
    (hop : ∀ a, a < Q → (op a : ZMod Q) = a + c) :
    (⟨Q, ((List.replicate N 0).modify 0 (modSubFast w · 1 Q)).modify i op⟩ : PolyValues).toPoly =
      (⟨fun j => if j.val = i then c else 0⟩ - 1 : NativePoly N Q) := by
  ext j
  have hsub := modSubFast_lt (w := w) (show 0 < Q by omega) (show 1 < Q by omega) (by omega)
  have hfirst : ((if 0 = j.val then (modSubFast w · 1 Q) else id) 0 : ℕ) < Q := by
    split
    · exact hsub
    · simp only [id]
      omega
  have hcast : (((if 0 = j.val then (modSubFast w · 1 Q) else id) 0 : ℕ) : ZMod Q) =
      -(if j.val = 0 then 1 else 0) := by
    split
    · rename_i h
      rw [sub_one_cast hQ hw (by omega), if_pos h.symm]
      simp
    · rename_i h
      rw [if_neg (Ne.symm h)]
      simp
  rw [PolyValues.toPoly, NativePoly.ofValues, coeff_sub, coeff_one]
  dsimp only
  rw [getD_modify_modify j.isLt]
  by_cases h : i = j.val
  · rw [if_pos h, if_pos h.symm, hop _ hfirst, hcast]
    ring
  · rw [if_neg h, if_neg (Ne.symm h), id, hcast]
    ring

theorem toPoly_monomialPos {N Q i : ℕ} (hQ : 2 < Q) (hw : 2 * Q ≤ 2 ^ w.bits) (hi : i < N) :
    (monomialPos w N Q i).toPoly = (mono i - 1 : NativePoly N Q) := by
  rw [monomialPos, toPoly_modify hQ hw fun a ha => add_one_cast hQ hw ha, mono]
  simp only [Nat.mod_eq_of_lt hi, Nat.div_eq_of_lt hi, pow_zero]

theorem toPoly_monomialNeg {N Q i : ℕ} (hQ : 2 < Q) (hw : 2 * Q ≤ 2 ^ w.bits) (hi : i < N) :
    (monomialNeg w N Q i).toPoly = (mono (i + N) - 1 : NativePoly N Q) := by
  have hop : ∀ a, a < Q → ((modSubFast w a 1 Q : ℕ) : ZMod Q) = a + -1 := fun a ha => by
    rw [sub_one_cast hQ hw ha, sub_eq_add_neg]
  rw [monomialNeg, toPoly_modify hQ hw hop, mono]
  simp only [Nat.add_mod_right, Nat.mod_eq_of_lt hi, Nat.add_div_right _ (show 0 < N by omega),
    Nat.div_eq_of_lt hi, zero_add, pow_one]

theorem monomialTable_toPoly {N Q i : ℕ} (hQ : 2 < Q) (hw : 2 * Q ≤ 2 ^ w.bits) (hi : i < 2 * N) :
    ∃ a, (monomialTable w N Q)[i]? = some a ∧ a.toPoly = (mono i - 1 : NativePoly N Q) := by
  rcases Nat.lt_or_ge i N with h | h
  · exact ⟨_, monomialTable_get_lt h, toPoly_monomialPos hQ hw h⟩
  · refine ⟨_, monomialTable_get_ge h hi, ?_⟩
    rw [toPoly_monomialNeg hQ hw (by omega), Nat.sub_add_cancel h]

theorem construct_ok {polyParams : ILNativeParams} {draw : PolyValues}
    {k N Q q baseG baseR numAutoKeys : ℕ} {method : Method} {keyDist : SecretKeyDist}
    {p : UniEncCryptoParams} (h : construct w plat polyParams draw k N Q q baseG baseR method keyDist
      false numAutoKeys = .ok p) (uses : method.usesMonomials = true) :
    (p.k = k ∧ p.N = N ∧ p.Q = Q ∧ p.baseG = baseG ∧ p.digitsG = plat.digitCount Q baseG ∧
      p.polyParams = some polyParams) ∧
    p.Gpower = gpowerTable p.baseG p.Q p.digitsG ∧ p.monomials = monomialTable w p.N p.Q ∧
    p.baseG.isPowerOfTwo := by
  unfold construct at h
  split at h
  · cases h
  · rename_i pow
    split at h
    · cases h
    · cases h
      refine ⟨⟨rfl, rfl, rfl, rfl, rfl, rfl⟩, rfl, ?_, not_not.mp pow⟩
      simp [UniEncCryptoParams.preCompute, Gadget.preCompute, uses, default]

end UniEncCryptoParams

open Gadget UniEncCryptoParams

/-- Parameters in the state the constructor leaves: the base is a power of two, the digits cover the
modulus, the modulus leaves the word its spare bits, and the tables are the ones of `PreCompute`. -/
structure UniEncParams (w : NativeSize) extends UniEncCryptoParams where
  k_pos : 0 < k
  baseG_eq : baseG = 2 ^ ctz baseG
  gBits_pos : 1 ≤ ctz baseG
  two_le_digitsG : 2 ≤ digitsG
  pow_lt : baseG ^ (digitsG - 1) < Q
  not_tooLarge : ¬ modulusTooLarge w Q
  N_eq : N = 2 ^ N.log2
  two_mul_N_lt : 2 * N < 2 ^ 32
  digitsG_le : digitsG - 1 ≤ N
  Gpower_eq : Gpower = gpowerTable baseG Q digitsG
  monomials_eq : monomials = monomialTable w N Q
  root_pow : toUniEncCryptoParams.rootOfUnity ^ N = -1

namespace UniEncParams
variable {w : NativeSize} (p : UniEncParams w)

theorem two_le_baseG : 2 ≤ p.baseG := by
  have h1 : 2 ^ 1 ≤ 2 ^ ctz p.baseG := Nat.pow_le_pow_right (by omega) p.gBits_pos
  rw [p.baseG_eq]
  omega

theorem baseG_lt : p.baseG < p.Q := by
  have h := p.pow_lt
  have h2 := p.two_le_digitsG
  have : p.baseG ^ 1 ≤ p.baseG ^ (p.digitsG - 1) :=
    Nat.pow_le_pow_right (by have := p.two_le_baseG; omega) (by omega)
  rw [pow_one] at this
  omega

theorem two_lt_Q : 2 < p.Q := by
  have := p.two_le_baseG
  have := p.baseG_lt
  omega

theorem two_mul_Q_le : 2 * p.Q ≤ 2 ^ w.bits := by
  have := lt_of_not_tooLarge p.not_tooLarge
  omega

instance : NeZero p.N := ⟨by rw [p.N_eq]; positivity⟩
instance : NeZero p.Q := ⟨by have := p.two_lt_Q; omega⟩
instance : Fact (1 < p.Q) := ⟨by have := p.two_lt_Q; omega⟩
instance : NeZero p.k := ⟨p.k_pos.ne'⟩
instance : NeZero (p.digitsG - 1) := ⟨by have := p.two_le_digitsG; omega⟩

theorem getMonomial_eq {i : ℕ} (hi : i < 2 * p.N) : p.getMonomial i = .ok (mono i - 1) := by
  obtain ⟨a, ha, hpoly⟩ := monomialTable_toPoly (w := w) p.two_lt_Q p.two_mul_Q_le hi
  rw [getMonomial, p.monomials_eq, ha]
  exact congrArg Except.ok hpoly

def ofConstruct {plat : Platform} {polyParams : ILNativeParams} {draw : PolyValues}
    {k N Q q baseG baseR numAutoKeys : ℕ} {method : Method} {keyDist : SecretKeyDist}
    {p : UniEncCryptoParams} (h : construct w plat polyParams draw k N Q q baseG baseR method keyDist
      false numAutoKeys = .ok p) (uses : method.usesMonomials = true) (hk : 0 < k) (hG : 1 < baseG)
    (hG32 : baseG < 2 ^ 32) (hd : 2 ≤ plat.digitCount Q baseG) (hdN : plat.digitCount Q baseG - 1 ≤ N)
    (hpow : baseG ^ (plat.digitCount Q baseG - 1) < Q) (hQ : ¬ modulusTooLarge w Q) (hN : N = 2 ^ N.log2)
    (hN32 : 2 * N < 2 ^ 32)
    (hroot : ((polyParams.rootOfUnity : ℕ) : ZMod Q) ^ N = -1) : UniEncParams w where
  toUniEncCryptoParams := p
  k_pos := (construct_ok h uses).1.1 ▸ hk
  baseG_eq := by
    obtain ⟨⟨_, _, _, same, _⟩, _, _, g, hg⟩ := construct_ok h uses
    have : g < 32 := (Nat.pow_lt_pow_iff_right (by omega : 1 < 2)).mp (by rw [← hg, same]; exact hG32)
    rw [hg, ctz_two_pow this]
  gBits_pos := by
    obtain ⟨⟨_, _, _, same, _⟩, _, _, g, hg⟩ := construct_ok h uses
    have : g < 32 := (Nat.pow_lt_pow_iff_right (by omega : 1 < 2)).mp (by rw [← hg, same]; exact hG32)
    rw [hg, ctz_two_pow this]
    by_contra hc
    obtain rfl : g = 0 := by omega
    omega
  two_le_digitsG := (construct_ok h uses).1.2.2.2.2.1 ▸ hd
  pow_lt := by
    obtain ⟨⟨_, _, hQ', hG', hd', _⟩, _⟩ := construct_ok h uses
    rw [hQ', hG', hd']
    exact hpow
  not_tooLarge := (construct_ok h uses).1.2.2.1 ▸ hQ
  N_eq := (construct_ok h uses).1.2.1 ▸ hN
  two_mul_N_lt := (construct_ok h uses).1.2.1 ▸ hN32
  digitsG_le := by
    obtain ⟨⟨_, hN', _, _, hd', _⟩, _⟩ := construct_ok h uses
    rw [hN', hd']
    exact hdN
  Gpower_eq := (construct_ok h uses).2.1
  monomials_eq := (construct_ok h uses).2.2.1
  root_pow := by
    obtain ⟨⟨_, hN', hQ', _, _, hp⟩, _⟩ := construct_ok h uses
    subst hN' hQ'
    rw [rootOfUnity, hp]
    exact hroot

end UniEncParams
end MultiKeyFHE
