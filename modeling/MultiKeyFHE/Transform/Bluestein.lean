import MultiKeyFHE.Native.FastProducts
import MultiKeyFHE.Native.ModulusChange
import MultiKeyFHE.NumberTheory.TransformPrime
import MultiKeyFHE.Transform.Cyclic

/-!
# Bluestein's method

`BluesteinFFTNat` of `transformnat-impl.h`: a transform of any length `cycloOrder` as a cyclic product of length
`nttDim`, a power of two, modulo an auxiliary prime. The squares in the exponents are words of 32 bits that are reduced
modulo `2 * cycloOrder` only after the product has wrapped.
-/

namespace MultiKeyFHE.BluesteinFFT
open NativeInteger InPlace Fuel NumberTheoreticTransform

section Model
variable (w : NativeSize)

/-- A modulus and a root of unity, the key of most tables. -/
abbrev ModulusRoot := ℕ × ℕ

/-- The static maps. A subscript with a new key gives the default value. -/
structure Tables where
  rootOfUnityTableByModulusRoot : ModulusRoot → WordVector := fun _ => ⟨[], 0⟩
  rootOfUnityInverseTableByModulusRoot : ModulusRoot → WordVector := fun _ => ⟨[], 0⟩
  powersTableByModulusRoot : ModulusRoot → WordVector := fun _ => ⟨[], 0⟩
  RBTableByModulusRootPair : ModulusRoot × ModulusRoot → WordVector := fun _ => ⟨[], 0⟩
  defaultNTTModulusRoot : ℕ → ModulusRoot := fun _ => (0, 0)

/-- An unsigned number of 32 bits, less one. -/
def pred (x : ℕ) : ℕ := (x + 2 ^ 32 - 1) % 2 ^ 32

/-- `pow(2, ceil(log2(2 * cycloOrder - 1)))`, which a double holds exactly. -/
def nttDim (cycloOrder : ℕ) : ℕ := 2 ^ Nat.clog 2 (pred (2 * cycloOrder))

/-- `x`, `x * root` and so on, as the two loops over the root tables leave them. -/
def successivePowers (root modulus : ℕ) : ℕ → ℕ → List ℕ
  | 0, _ => []
  | count + 1, x => x :: successivePowers root modulus count (modMul w x root modulus)

def preComputeRootTableForNTT (cycloOrder : ℕ) (nttModulusRoot : ModulusRoot) (tables : Tables) : Except Fault Tables := do
  let (nttModulus, root) := nttModulusRoot
  let rootInv ← modInverse w root nttModulus
  let nttDimHf := nttDim cycloOrder >>> 1
  return { tables with
    rootOfUnityTableByModulusRoot := Function.update tables.rootOfUnityTableByModulusRoot nttModulusRoot
      ⟨successivePowers w root nttModulus nttDimHf 1, nttModulus⟩
    rootOfUnityInverseTableByModulusRoot := Function.update tables.rootOfUnityInverseTableByModulusRoot nttModulusRoot
      ⟨successivePowers w rootInv nttModulus nttDimHf 1, nttModulus⟩ }

def preComputeDefaultNTTModulusRoot (isPrime : ℕ → Bool) (fuel : ℕ) (stream : ℕ → ℕ) (cycloOrder modulus position : ℕ)
    (tables : Tables) : Attempt Fault (Tables × ℕ) := do
  let dim := nttDim cycloOrder
  let nttModulus ← NbTheory.firstPrime (.native w) isPrime fuel (Nat.log 2 dim + 2 * modulus.size) dim
  let (nttRoot, position) ← NbTheory.rootOfUnity (.native w) stream fuel dim nttModulus position
  let tables := { tables with
    defaultNTTModulusRoot := Function.update tables.defaultNTTModulusRoot modulus (nttModulus, nttRoot) }
  let tables ← preComputeRootTableForNTT w cycloOrder (nttModulus, nttRoot) tables
  return (tables, position)

/-- `(i * i) % (2 * cycloOrder)`. -/
def iSqr (cycloOrder i : ℕ) : Except Fault ℕ :=
  if 2 * cycloOrder % 2 ^ 32 = 0 then .error .divisionByZero else .ok (i * i % 2 ^ 32 % (2 * cycloOrder % 2 ^ 32))

/-- The loop from one on, with `write` for the entries that the power goes to. -/
def squarePowers (cycloOrder root modulus : ℕ) (places : ℕ → List ℕ) (start : List ℕ) : Except Fault (List ℕ) :=
  (List.range (cycloOrder - 1)).foldlM (fun entries k => do
    let i := k + 1
    let square ← iSqr cycloOrder i
    let val ← (IntType.native w).modExp root square modulus
    (places i).foldlM (fun entries place => store .outOfRange entries place val) entries) start

def preComputePowers (cycloOrder : ℕ) (modulusRoot : ModulusRoot) (tables : Tables) : Except Fault Tables := do
  let (modulus, root) := modulusRoot
  let powers ← store .outOfRange (List.replicate cycloOrder 0) 0 1
  let powers ← squarePowers w cycloOrder root modulus (fun i => [i]) powers
  return { tables with
    powersTableByModulusRoot := Function.update tables.powersTableByModulusRoot modulusRoot ⟨powers, modulus⟩ }

def padZeros (a : WordVector) (finalSize : ℕ) : Except Fault WordVector :=
  if finalSize < a.values.length then .error .outOfRange
  else .ok ⟨a.values ++ List.replicate (finalSize - a.values.length) 0, a.modulus⟩

def resize (a : WordVector) (lo hi : ℕ) : Except Fault WordVector := do
  let values ← (List.range (hi - lo + 1)).mapM fun j => load .outOfRange a.values (lo + j)
  return ⟨values, a.modulus⟩

/-- The vector `b` of `PreComputeRBTable`: the inverse powers, in both directions from the middle. -/
def kernel (cycloOrder : ℕ) (modulusRoot : ModulusRoot) : Except Fault (List ℕ) := do
  let (modulus, root) := modulusRoot
  let rootInv ← modInverse w root modulus
  let b ← store .outOfRange (List.replicate (pred (2 * cycloOrder)) 0) (pred cycloOrder) 1
  squarePowers w cycloOrder rootInv modulus (fun i => [pred cycloOrder + i, pred cycloOrder - i]) b

def preComputeRBTable (cycloOrder : ℕ) (modulusRootPair : ModulusRoot × ModulusRoot) (tables : Tables) :
    Except Fault Tables := do
  let (modulusRoot, nttModulusRoot) := modulusRootPair
  let b ← kernel w cycloOrder modulusRoot
  let Rb ← padZeros ⟨b, modulusRoot.1⟩ (nttDim cycloOrder)
  let nttModulus := nttModulusRoot.1
  NativeVector.setModulus w nttModulus
  let RB ← forwardTransformIterative w nttModulus Rb.values (tables.rootOfUnityTableByModulusRoot nttModulusRoot).values
    (nttDim cycloOrder)
  return { tables with
    RBTableByModulusRootPair := Function.update tables.RBTableByModulusRootPair modulusRootPair ⟨RB.cells, nttModulus⟩ }

/-- `ForwardTransform(element, root, cycloOrder, nttModulusRoot)`. -/
def forwardTransformWith (tables : Tables) (element : WordVector) (root cycloOrder : ℕ) (nttModulusRoot : ModulusRoot) :
    Except Fault WordVector := do
  if element.values.length ≠ cycloOrder then
    throw (.mathError "expected size of element vector should be equal to cyclotomic order")
  let modulus := element.modulus
  let powers := tables.powersTableByModulusRoot (modulus, root)
  let nttModulus := nttModulusRoot.1
  let rootTable := tables.rootOfUnityTableByModulusRoot nttModulusRoot
  let rootTableInverse := tables.rootOfUnityInverseTableByModulusRoot nttModulusRoot
  let x ← element.modMul w powers
  let dim := nttDim cycloOrder
  let Ra ← padZeros x dim
  NativeVector.setModulus w nttModulus
  let RA ← forwardTransformIterative w nttModulus Ra.values rootTable.values dim
  let RB := tables.RBTableByModulusRootPair ((modulus, root), nttModulusRoot)
  let RC ← WordVector.modMul w ⟨RA.cells, nttModulus⟩ RB
  let Rc ← inverseTransformIterative w RC.modulus RC.values rootTableInverse.values dim
  let resizeRc ← resize ⟨Rc.cells, RC.modulus⟩ (pred cycloOrder) (2 * pred cycloOrder % 2 ^ 32)
  NativeVector.setModulus w modulus
  let resizeRc ← WordVector.modEq w ⟨resizeRc.values, modulus⟩ modulus
  resizeRc.modMul w powers

def forwardTransform (tables : Tables) (element : WordVector) (root cycloOrder : ℕ) : Except Fault WordVector :=
  forwardTransformWith w tables element root cycloOrder (tables.defaultNTTModulusRoot element.modulus)

/-- The precomputations that a transform relies on, in the order of their callers. -/
def preCompute (isPrime : ℕ → Bool) (fuel : ℕ) (stream : ℕ → ℕ) (cycloOrder : ℕ) (modulusRoot : ModulusRoot) (position : ℕ)
    (tables : Tables) : Attempt Fault (Tables × ℕ) := do
  let (tables, position) ← preComputeDefaultNTTModulusRoot w isPrime fuel stream cycloOrder modulusRoot.1 position tables
  let tables ← preComputePowers w cycloOrder modulusRoot tables
  let tables ← preComputeRBTable w cycloOrder (modulusRoot, tables.defaultNTTModulusRoot modulusRoot.1) tables
  return (tables, position)

end Model

/-! ### Lists by their entries -/

theorem store_range {fault : Fault} {n place : ℕ} (f : ℕ → ℕ) (h : place < n) (a : ℕ) :
    store fault ((List.range n).map f) place a = .ok ((List.range n).map (Function.update f place a)) := by
  rw [store_ok fault (by simpa using h)]
  congr 1
  apply List.ext_getElem
  · simp
  · intro i _ hi
    simp only [List.getElem_set, List.getElem_map, List.getElem_range, Function.update_apply]
    exact if_congr eq_comm rfl rfl

theorem store_each {n a : ℕ} {places : List ℕ} (inside : ∀ place ∈ places, place < n) (f : ℕ → ℕ) :
    places.foldlM (fun entries place => store Fault.outOfRange entries place a) ((List.range n).map f) =
      .ok ((List.range n).map fun j => if j ∈ places then a else f j) := by
  induction places generalizing f with
  | nil => simp; rfl
  | cons place rest ih =>
    rw [List.foldlM_cons, store_range f (inside place (by simp))]
    refine (ih (fun j member => inside j (List.mem_cons_of_mem _ member)) _).trans ?_
    congr 1
    refine List.map_congr_left fun j _ => ?_
    by_cases later : j ∈ rest
    · simp [later]
    · simp [later, Function.update_apply]

theorem getD_range {n : ℕ} (f : ℕ → ℕ) (i : ℕ) : ((List.range n).map f).getD i 0 = if i < n then f i else 0 := by
  rw [List.getD_eq_getElem?_getD, List.getElem?_map]
  split
  · simp [*]
  · rename_i outside
    simp [not_lt.mp outside]

theorem padZeros_ok (values : List ℕ) {n : ℕ} (le : values.length ≤ n) (q : ℕ) :
    padZeros ⟨values, q⟩ n = .ok ⟨(List.range n).map fun i => values.getD i 0, q⟩ := by
  rw [padZeros, if_neg (not_lt.mpr le)]
  congr 2
  apply List.ext_getElem
  · simp [le]
  · intro i _ hi
    rw [List.getElem_append]
    split
    · rename_i inside
      rw [List.getElem_map, List.getElem_range, List.getD_eq_getElem _ _ inside]
    · rename_i outside
      rw [List.getElem_map, List.getElem_range, List.getElem_replicate, List.getD_eq_default _ _ (not_lt.mp outside)]

theorem resize_range {n lo hi : ℕ} (le : lo ≤ hi) (room : hi < n) (f : ℕ → ℕ) (q : ℕ) :
    resize ⟨(List.range n).map f, q⟩ lo hi = .ok ⟨(List.range (hi - lo + 1)).map fun j => f (lo + j), q⟩ := by
  have found := Run.mapM_eq_map (f := fun j => load Fault.outOfRange ((List.range n).map f) (lo + j))
    (g := fun j => f (lo + j)) (l := List.range (hi - lo + 1)) (by
      intro j member
      have hj := List.mem_range.mp member
      rw [load_ok _ (by simp; omega)]
      simp)
  rw [resize]
  dsimp only
  rw [found]
  rfl

section Vectors
variable {w : NativeSize} {q : ℕ}

theorem modMul_range (suitable : Suitable w q) {n : ℕ} {f g : ℕ → ℕ} (hf : ∀ i < n, f i < q) (hg : ∀ i < n, g i < q) :
    WordVector.modMul w ⟨(List.range n).map f, q⟩ ⟨(List.range n).map g, q⟩ =
      .ok ⟨(List.range n).map fun i => f i * g i % q, q⟩ := by
  rw [WordVector.modMul, if_neg (by simp), computeMu_ok suitable]
  dsimp only [bind, Except.bind, pure, Except.pure]
  congr 2
  apply List.ext_getElem
  · simp
  · intro i hi _
    have inside : i < n := by simpa using hi
    simp only [List.getElem_zipWith, List.getElem_map, List.getElem_range]
    exact modMulFastMu_eq suitable.two_le suitable.room suitable.barrett (hf i inside) (hg i inside)

theorem switchModulus_mod {v : ℕ} (word : v + q < 2 ^ w.bits) : NativeVector.switchModulus w q q v = v % q := by
  have reduce : ∀ x, (if x ≥ q then x % q else x) = x % q := by
    intro x
    split
    · rfl
    · rw [Nat.mod_eq_of_lt (by omega)]
  unfold NativeVector.switchModulus
  rw [if_neg (lt_irrefl q), Nat.mod_self, Nat.sub_zero]
  dsimp only
  rw [reduce]
  split
  · rw [wrap_of_lt word, Nat.add_mod_right]
  · rfl

theorem modEq_range (large : 2 < q) {n : ℕ} {f : ℕ → ℕ} (word : ∀ i < n, f i + q < 2 ^ w.bits) :
    WordVector.modEq w ⟨(List.range n).map f, q⟩ q = .ok ⟨(List.range n).map fun i => f i % q, q⟩ := by
  rw [WordVector.modEq, if_neg large.ne', if_neg (show q ≠ 0 by omega)]
  congr 2
  rw [List.map_map]
  refine List.map_congr_left fun i member => ?_
  exact switchModulus_mod (word i (List.mem_range.mp member))

end Vectors

/-! ### The tables -/

/-- What stands in the exponents for the square of `i`. -/
def exponent (cycloOrder i : ℕ) : ℕ := i * i % 2 ^ 32 % (2 * cycloOrder)

section Squares
variable {w : NativeSize} {m q root : ℕ} (some : 0 < m) (word : 2 * m < 2 ^ 32)
include some word

theorem iSqr_eq (i : ℕ) : iSqr m i = .ok (exponent m i) := by
  rw [iSqr, Nat.mod_eq_of_lt word, if_neg (by omega), exponent]

/-- The places of a power are those of its level. -/
theorem squarePowers_ok (two : 2 ≤ q) (hq : q < 2 ^ w.bits) (hr : root < 2 ^ w.bits) {n : ℕ} (places : ℕ → List ℕ)
    (level : ℕ → ℕ) (inside : ∀ i < m, ∀ j ∈ places i, j < n) (levels : ∀ i < m, ∀ j < n, j ∈ places i ↔ level j = i)
    (bounded : ∀ j < n, level j < m) :
    squarePowers w m root q places ((List.range n).map fun j => if level j = 0 then 1 else 0) =
      .ok ((List.range n).map fun j => root ^ exponent m (level j) % q) := by
  have zero : exponent m 0 = 0 := by simp [exponent]
  obtain ⟨last, run, rfl⟩ := foldlM_range_ok (n := m - 1)
    (s := (List.range n).map fun j => if level j = 0 then 1 else 0)
    (f := fun entries k => do
      let square ← iSqr m (k + 1)
      let val ← (IntType.native w).modExp root square q
      (places (k + 1)).foldlM (fun entries place => store .outOfRange entries place val) entries)
    (fun k now => now = (List.range n).map fun j => if level j ≤ k then root ^ exponent m (level j) % q else 0)
    (by
      refine List.map_congr_left fun j _ => ?_
      by_cases first : level j = 0
      · rw [if_pos first, if_pos first.le, first, zero, pow_zero, Nat.mod_eq_of_lt two]
      · rw [if_neg first, if_neg (by omega)]) (by
      rintro k hk now rfl
      have small : exponent m (k + 1) < 2 ^ w.bits :=
        (Nat.mod_lt _ (by omega)).trans_le (word.le.trans w.two_pow_32_le)
      have power := (IntType.native_modular two hq).modExp hr small
      dsimp only [id] at power
      rw [iSqr_eq some word]
      dsimp only [bind, Except.bind]
      rw [power]
      dsimp only
      rw [store_each (inside (k + 1) (by omega))]
      refine ⟨_, rfl, List.map_congr_left fun j member => ?_⟩
      have hj := List.mem_range.mp member
      by_cases here : level j = k + 1
      · rw [if_pos ((levels (k + 1) (by omega) j hj).mpr here), if_pos here.le, here]
      · rw [if_neg (mt (levels (k + 1) (by omega) j hj).mp here)]
        exact if_congr (by omega) rfl rfl)
  refine run.trans (congrArg _ (List.map_congr_left fun j member => ?_))
  have := bounded j (List.mem_range.mp member)
  rw [if_pos (by omega)]

theorem pred_eq : pred (2 * m) = 2 * m - 1 ∧ pred m = m - 1 := by
  constructor
  · rw [pred, show 2 * m + 2 ^ 32 - 1 = 2 * m - 1 + 2 ^ 32 by omega, Nat.add_mod_right, Nat.mod_eq_of_lt (by omega)]
  · rw [pred, show m + 2 ^ 32 - 1 = m - 1 + 2 ^ 32 by omega, Nat.add_mod_right, Nat.mod_eq_of_lt (by omega)]

theorem preComputePowers_ok (two : 2 ≤ q) (hq : q < 2 ^ w.bits) (hr : root < 2 ^ w.bits) (tables : Tables) :
    preComputePowers w m (q, root) tables = .ok { tables with
      powersTableByModulusRoot := Function.update tables.powersTableByModulusRoot (q, root)
        ⟨(List.range m).map fun i => root ^ exponent m i % q, q⟩ } := by
  have start : store Fault.outOfRange (List.replicate m 0) 0 1 = .ok ((List.range m).map fun j => if j = 0 then 1 else 0) := by
    have zeros : List.replicate m 0 = (List.range m).map fun _ => 0 := by simp
    rw [zeros, store_range _ some]
    exact congrArg _ (List.map_congr_left fun j _ => Function.update_apply ..)
  have filled := squarePowers_ok some word two hq hr (n := m) (fun i => [i]) (fun j => j)
    (fun i hi j member => by rwa [List.mem_singleton.mp member]) (fun i _ j _ => List.mem_singleton) (fun j hj => hj)
  rw [preComputePowers]
  dsimp only [bind, Except.bind]
  rw [start]
  dsimp only
  rw [filled]
  rfl

omit some word in
/-- How far a place of the kernel is from the middle. -/
def offset (m j : ℕ) : ℕ := j - (m - 1) + (m - 1 - j)

theorem kernel_ok (two : 2 ≤ q) (hq : 2 * q < 2 ^ w.bits) (coprime : root.Coprime q) :
    ∃ rootInv < q, rootInv * root ≡ 1 [MOD q] ∧
      kernel w m (q, root) = .ok ((List.range (2 * m - 1)).map fun j => rootInv ^ exponent m (offset m j) % q) := by
  obtain ⟨rootInv, inverted, below, unit⟩ := modInverse_ok two hq coprime
  obtain ⟨whole, middle⟩ := pred_eq some word
  refine ⟨rootInv, below, unit, ?_⟩
  have start : store Fault.outOfRange (List.replicate (2 * m - 1) 0) (m - 1) 1 =
      .ok ((List.range (2 * m - 1)).map fun j => if offset m j = 0 then 1 else 0) := by
    have zeros : List.replicate (2 * m - 1) 0 = (List.range (2 * m - 1)).map fun _ => 0 := by simp
    rw [zeros, store_range _ (by omega)]
    refine congrArg _ (List.map_congr_left fun j _ => (Function.update_apply ..).trans (if_congr ?_ rfl rfl))
    unfold offset
    omega
  have filled := squarePowers_ok some word two (show q < 2 ^ w.bits by omega) (show rootInv < 2 ^ w.bits by omega)
    (n := 2 * m - 1) (fun i => [m - 1 + i, m - 1 - i]) (offset m)
    (fun i hi j member => by
      rcases List.mem_pair.mp member with rfl | rfl <;> omega)
    (fun i hi j hj => by
      rw [List.mem_pair]
      unfold offset
      omega)
    (fun j hj => by
      unfold offset
      omega)
  unfold kernel
  simp only [whole, middle]
  rw [inverted]
  dsimp only [bind, Except.bind]
  rw [start]
  exact filled

end Squares

section Roots
variable {w : NativeSize} {p root : ℕ} (suitable : Suitable w p) (below : root < p)
include suitable below

theorem successivePowers_roots (n : ℕ) : Roots p n (fun k => (root : ZMod p) ^ k) (successivePowers w root p n 1) := by
  have two := suitable.two_le
  have small : p < 2 ^ (w.bits - 4) := by
    rw [w.bits_eq, Nat.add_sub_cancel]
    exact Nat.size_le.mp (Nat.not_lt.mp suitable.room)
  have each : ∀ n x, x < p → (successivePowers w root p n x).length = n ∧ (∀ b ∈ successivePowers w root p n x, b < p) ∧
      ∀ k < n, values (residue p) (successivePowers w root p n x) k = (x : ZMod p) * (root : ZMod p) ^ k := by
    intro n
    induction n with
    | zero =>
      intro x _
      refine ⟨rfl, ?_, fun k hk => by omega⟩
      intro b member
      simp [successivePowers] at member
    | succ n ih =>
      intro x hx
      have product : modMul w x root p = x * root % p := by
        rw [modMul_eq two small, Nat.mod_eq_of_lt hx, Nat.mod_eq_of_lt below]
      obtain ⟨length, bounded, value⟩ := ih (modMul w x root p) (by rw [product]; exact Nat.mod_lt _ (by omega))
      refine ⟨congrArg (· + 1) length, ?_, ?_⟩
      · intro b member
        rcases List.mem_cons.mp member with rfl | member
        · exact hx
        · exact bounded b member
      · rintro (_ | k) hk
        · simp [successivePowers, values, residue]
        · have later := value k (by omega)
          rw [product, ZMod.natCast_mod, Nat.cast_mul, mul_assoc, ← pow_succ'] at later
          rw [← later, successivePowers, product, values, List.getElem?_cons_succ, values]
  obtain ⟨length, bounded, value⟩ := each n 1 (by omega)
  refine ⟨length, bounded, fun k hk => ?_⟩
  rw [value k hk, Nat.cast_one, one_mul]

end Roots

end MultiKeyFHE.BluesteinFFT
