import MultiKeyFHE.Library.KeyMap
import MultiKeyFHE.Params.Constants

/-!
# Gadget powers

The members of `RingGSWCryptoParams` and `UniEncCryptoParams` that hold the gadget base and its powers, the part
of `PreCompute` that fills them, and `Change_BaseG`.
-/

namespace MultiKeyFHE
open NativeInteger

structure ILNativeParams where
  cyclotomicOrder : ℕ
  modulus : ℕ
  rootOfUnity : ℕ
  deriving DecidableEq, Repr

/-- What floating point logarithms and number theory give the parameter classes. -/
structure Platform where
  /-- `ceil(log(Q) / log(base))`. -/
  digitCount : ℕ → ℕ → ℕ
  /-- The size of the vector of powers of `base` for sign evaluation. -/
  signDigits : ℕ → ℕ → ℕ
  /-- `PreviousPrime(FirstPrime(bits, order), order)`. -/
  intermediatePrime : ℕ → ℕ → Except Fault ℕ
  /-- `FindRingDim(HEStd_ternary, HEStd_128_classic, logQ)`. -/
  findRingDim : ℕ → Except Fault ℕ
  /-- `ILNativeParams(order, modulus)`, with the root of unity it finds. -/
  ilNativeParams : ℕ → ℕ → Except Fault ILNativeParams

/-- Every logarithm gives three digits; there are no primes to find. -/
def Platform.threeDigits : Platform :=
  ⟨fun _ _ => 3, fun _ _ => 3, fun _ _ => .ok 0, fun _ => .ok 0, fun order modulus => .ok ⟨order, modulus, 0⟩⟩

structure Gadget where
  Q : ℕ
  baseG : ℕ
  digitsG : ℕ
  Gpower : List ℕ
  Gpower_map : KeyMap (List ℕ)
  deriving DecidableEq, Repr

namespace Gadget

/-- The loop over `vTemp`: each pass stores it and multiplies it by the base. -/
def powersFrom (base Q : ℕ) : ℕ → ℕ → List ℕ
  | 0, _ => []
  | count + 1, vTemp => vTemp :: powersFrom base Q count (modMulFast vTemp base Q)

def gpowerTable (base Q digits : ℕ) : List ℕ := powersFrom base Q digits 1

variable (plat : Platform)

def preComputeBase (g : Gadget) (base : ℕ) : Gadget :=
  let tempvec := gpowerTable base g.Q (plat.signDigits g.Q base)
  { g with
    Gpower := if g.baseG = base then tempvec else g.Gpower
    Gpower_map := g.Gpower_map.write tempvec base }

def baseGlist : List ℕ := [2 ^ 14, 2 ^ 18, 2 ^ 27]

def preCompute (signEval : Bool) (g : Gadget) : Gadget :=
  if signEval then baseGlist.foldl (preComputeBase plat) g
  else { g with Gpower := g.Gpower ++ gpowerTable g.baseG g.Q g.digitsG }

/-- `Change_BaseG`. A base without an entry gets an empty one. -/
def changeBaseG (base : ℕ) (g : Gadget) : Gadget :=
  if g.baseG ≠ base then
    { g with
      baseG := base
      Gpower := (g.Gpower_map.get? base).getD []
      Gpower_map := g.Gpower_map.touch [] base
      digitsG := plat.digitCount g.Q base }
  else g

theorem powersFrom_get {base Q digits v i : ℕ} (hi : i < digits) (hv : v < Q) :
    (powersFrom base Q digits v)[i]? = some (v * base ^ i % Q) := by
  induction digits generalizing v i with
  | zero => omega
  | succ digits ih =>
    cases i with
    | zero => simp [powersFrom, Nat.mod_eq_of_lt hv]
    | succ i =>
      rw [powersFrom, modMulFast, List.getElem?_cons_succ, ih (by omega) (Nat.mod_lt _ (by omega)),
        Nat.mod_mul_mod, pow_succ']
      congr 2
      ring

theorem powersFrom_length (base Q digits v : ℕ) : (powersFrom base Q digits v).length = digits := by
  induction digits generalizing v with
  | zero => rfl
  | succ digits ih => rw [powersFrom, List.length_cons, ih]

theorem gpowerTable_get {base Q digits i : ℕ} (hi : i < digits) (hQ : 1 < Q) :
    (gpowerTable base Q digits)[i]? = some (base ^ i % Q) := by
  rw [gpowerTable, powersFrom_get hi hQ, one_mul]

theorem gpowerTable_length (base Q digits : ℕ) : (gpowerTable base Q digits).length = digits :=
  powersFrom_length _ _ _ _

/-- With a table for sign evaluation, the powers in use are the entry of the base in use. -/
def Consistent (g : Gadget) : Prop :=
  g.Gpower_map ≠ [] → g.Gpower = (g.Gpower_map.get? g.baseG).getD [] ∧ g.digitsG = plat.digitCount g.Q g.baseG

def read (g : Gadget) : Gadget := { g with Gpower_map := [] }

variable {plat} {g : Gadget}

theorem preCompute_consistent (signEval : Bool) (Q baseG : ℕ) :
    (preCompute plat signEval ⟨Q, baseG, plat.digitCount Q baseG, [], []⟩).Consistent plat := by
  unfold preCompute
  split
  · suffices aligned : ∀ g : Gadget, g = baseGlist.foldl (preComputeBase plat) ⟨Q, baseG, plat.digitCount Q baseG, [], []⟩ →
        g.Gpower = (g.Gpower_map.get? g.baseG).getD [] ∧ g.digitsG = plat.digitCount g.Q g.baseG from
      fun _ => aligned _ rfl
    intro g same
    rw [same]
    apply List.foldlRecOn (motive := fun g : Gadget =>
      g.Gpower = (g.Gpower_map.get? g.baseG).getD [] ∧ g.digitsG = plat.digitCount g.Q g.baseG)
    · exact ⟨rfl, rfl⟩
    · intro g ⟨powers, digits⟩ base _
      refine ⟨?_, digits⟩
      unfold preComputeBase
      by_cases inUse : g.baseG = base
      · simp [inUse]
      · simp only [if_neg inUse, KeyMap.get?_write_other inUse]
        exact powers
  · exact fun filled => absurd rfl filled

theorem Consistent.read_changeBaseG (consistent : g.Consistent plat) (filled : g.Gpower_map ≠ []) (base : ℕ) :
    (g.changeBaseG plat base).read =
      ⟨g.Q, base, plat.digitCount g.Q base, (g.Gpower_map.get? base).getD [], []⟩ := by
  obtain ⟨powers, digits⟩ := consistent filled
  unfold changeBaseG read
  split
  · rfl
  · rename_i same
    obtain rfl := not_not.mp same
    rw [← powers, ← digits]

theorem Consistent.changeBaseG (consistent : g.Consistent plat) (base : ℕ) :
    (g.changeBaseG plat base).Consistent plat := by
  unfold Gadget.changeBaseG
  split
  · intro _
    refine ⟨?_, rfl⟩
    rw [KeyMap.get?_touch_self, Option.getD_some]
  · exact consistent

theorem changeBaseG_Q (base : ℕ) : (g.changeBaseG plat base).Q = g.Q := by
  unfold changeBaseG
  split <;> rfl

theorem changeBaseG_map {base : ℕ} (tabulated : base ∈ g.Gpower_map.keys) :
    (g.changeBaseG plat base).Gpower_map = g.Gpower_map := by
  unfold changeBaseG
  split
  · exact KeyMap.touch_of_mem tabulated
  · rfl

theorem changeBaseG_self : g.changeBaseG plat g.baseG = g := by simp [changeBaseG]

end Gadget
end MultiKeyFHE
