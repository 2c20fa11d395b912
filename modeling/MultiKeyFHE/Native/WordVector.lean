import MultiKeyFHE.Native.Modular
import MultiKeyFHE.Native.Rounding
import MultiKeyFHE.Native.Vector

/-!
# Native vectors with their modulus

`NativeVectorT` as a list of words and the modulus they are taken by. Every operation is followed by what it
leaves of a reduced vector. Where an operation can leave an entry that is not below the modulus, the lemma says for
which operands it does.
-/

namespace MultiKeyFHE
open NativeInteger

structure WordVector where
  values : List ℕ
  modulus : ℕ
  deriving DecidableEq, Repr

namespace WordVector
variable (w : NativeSize)

/-- `ModMul` with a vector. -/
def modMul (a b : WordVector) : Except Fault WordVector := do
  if a.values.length ≠ b.values.length ∨ a.modulus ≠ b.modulus then
    throw (.mathError "ModMul called on NativeVectorT's with different parameters.")
  let mu ← computeMuChecked w a.modulus
  return ⟨List.zipWith (fun x y => modMulFastMu w x y a.modulus mu) a.values b.values, a.modulus⟩

def modMulEq (a b : WordVector) : Except Fault WordVector := do
  if a.values.length ≠ b.values.length ∨ a.modulus ≠ b.modulus then
    throw (.mathError "ModMulEq called on NativeVectorT's with different parameters.")
  let mu ← computeMuChecked w a.modulus
  return ⟨List.zipWith (fun x y => modMulFastMu w x y a.modulus mu) a.values b.values, a.modulus⟩

/-- The loop over two vectors, after the check that they fit together. -/
def entrywise (message : String) (f : ℕ → ℕ → ℕ) (a b : WordVector) : Except Fault WordVector := do
  if a.values.length ≠ b.values.length ∨ a.modulus ≠ b.modulus then throw (.mathError message)
  return ⟨List.zipWith f a.values b.values, a.modulus⟩

def modAdd (a b : WordVector) : Except Fault WordVector :=
  entrywise "ModAdd called on NativeVectorT's with different parameters." (fun x y => modAddFast w x y a.modulus) a b

def modAddEq (a b : WordVector) : Except Fault WordVector :=
  entrywise "ModAddEq called on NativeVectorT's with different parameters." (fun x y => modAddFast w x y a.modulus) a b

def modSub (a b : WordVector) : Except Fault WordVector :=
  entrywise "ModSub called on NativeVectorT's with different parameters." (fun x y => modSubFast w x y a.modulus) a b

def modSubEq (a b : WordVector) : Except Fault WordVector :=
  entrywise "ModSubEq called on NativeVectorT's with different parameters." (fun x y => modSubFast w x y a.modulus) a b

/-- The `NoCheckEq` forms read past the end of a shorter operand. -/
def modAddNoCheckEq (a b : WordVector) : Except Fault WordVector :=
  if b.values.length < a.values.length then .error .outOfRange
  else .ok ⟨List.zipWith (fun x y => modAddFast w x y a.modulus) a.values b.values, a.modulus⟩

def modMulNoCheckEq (a b : WordVector) : Except Fault WordVector := do
  let mu ← computeMuChecked w a.modulus
  if b.values.length < a.values.length then throw .outOfRange
  return ⟨List.zipWith (fun x y => modMulFastMu w x y a.modulus mu) a.values b.values, a.modulus⟩

/-- `ModEq` of a word. -/
def modWord (x modulus : ℕ) : Except Fault ℕ := if modulus = 0 then .error .divisionByZero else .ok (x % modulus)

/-- What the operations with a scalar do to it first. -/
def reduceScalar (b modulus : ℕ) : Except Fault ℕ := if b ≥ modulus then modWord b modulus else .ok b

/-- `ModAdd` and `ModAddEq` with a scalar. -/
def modAddScalar (a : WordVector) (b : ℕ) : Except Fault WordVector := do
  let bv ← reduceScalar b a.modulus
  return { a with values := a.values.map fun x => modAddFast w x bv a.modulus }

/-- `ModSub` and `ModSubEq` with a scalar. -/
def modSubScalar (a : WordVector) (b : ℕ) : Except Fault WordVector := do
  let bv ← reduceScalar b a.modulus
  return { a with values := a.values.map fun x => modSubFast w x bv a.modulus }

/-- `ModMul` and `ModMulEq` with a scalar. -/
def modMulScalar (a : WordVector) (b : ℕ) : Except Fault WordVector := do
  let bv ← reduceScalar b a.modulus
  let bconst ← prepModMulConst w bv a.modulus
  return { a with values := a.values.map fun x => modMulFastConst w x bv a.modulus bconst }

/-- `ModAddAtIndex` and `ModAddAtIndexEq`. -/
def modAddAtIndex (a : WordVector) (i b : ℕ) : Except Fault WordVector :=
  match a.values[i]? with
  | none => .error (.mathError "NativeVectorT index out of range")
  | some v =>
    if a.modulus = 0 then .error .divisionByZero
    else .ok { a with values := a.values.set i (NativeInteger.modAdd w v b a.modulus) }

def switchModulus (a : WordVector) (modulus : ℕ) : Except Fault WordVector := do
  NativeVector.setModulus w modulus
  if modulus = 0 then throw .divisionByZero
  return ⟨a.values.map (NativeVector.switchModulus w a.modulus modulus), modulus⟩

/-- One entry of `MultiplyAndRound`. The upper half of the modulus stands for negative numbers. -/
def multiplyAndRoundEntry (modulus p q v : ℕ) : Except Fault ℕ := do
  if v > modulus / 2 then
    let r ← NativeInteger.multiplyAndRound w (sub w modulus v) p q
    return sub w modulus r
  let r ← NativeInteger.multiplyAndRound w v p q
  modWord r modulus

/-- `MultiplyAndRound` and `MultiplyAndRoundEq`. -/
def multiplyAndRound (a : WordVector) (p q : ℕ) : Except Fault WordVector := do
  let values ← a.values.mapM (multiplyAndRoundEntry w a.modulus p q)
  return { a with values := values }

def divideAndRoundEntry (modulus q v : ℕ) : Except Fault ℕ := do
  if v > modulus / 2 then
    let r ← NativeInteger.divideAndRound (sub w modulus v) q
    return sub w modulus r
  NativeInteger.divideAndRound v q

/-- `DivideAndRound` and `DivideAndRoundEq`. -/
def divideAndRound (a : WordVector) (q : ℕ) : Except Fault WordVector := do
  let values ← a.values.mapM (divideAndRoundEntry w a.modulus q)
  return { a with values := values }

/-! ### Reduced vectors -/

/-- Every entry is below the modulus. -/
def Reduced (a : WordVector) : Prop := ∀ v ∈ a.values, v < a.modulus

instance (a : WordVector) : Decidable a.Reduced := inferInstanceAs (Decidable (∀ v ∈ a.values, _))

/-- The operation returns, with this modulus and length, and the result is reduced just where `P` holds. -/
def ReturnsReducedIff (run : Except Fault WordVector) (modulus length : ℕ) (P : Prop) : Prop :=
  ∃ r, run = .ok r ∧ r.modulus = modulus ∧ r.values.length = length ∧ (r.Reduced ↔ P)

/-- What a binary operation checks. -/
structure Fits (a b : WordVector) : Prop where
  modulus : b.modulus = a.modulus
  length : b.values.length = a.values.length

/-- Where the product of two reduced vectors is reduced. -/
def ProductsFit (a b : WordVector) : Prop := ∀ p ∈ a.values.zip b.values, ProductFits w a.modulus (p.1 * p.2)

/-- Where no entry of the upper half is rounded to zero and stored as the modulus. -/
def QuotientsStay (q : ℕ) (a : WordVector) : Prop := ∀ v ∈ a.values, a.modulus / 2 < v → q / 2 < a.modulus - v

/-- The same for the quotients that go through `double`. -/
def RoundedProductsStay (p q : ℕ) (a : WordVector) : Prop :=
  ∀ v ∈ a.values, a.modulus / 2 < v → 1 / 2 - 1 / 2 ^ 54 ≤ roundedProduct (a.modulus - v) p q

variable {w} {a b : WordVector}

theorem forall_zipWith_lt {f : ℕ → ℕ → ℕ} {m : ℕ} {xs ys : List ℕ} :
    (∀ v ∈ List.zipWith f xs ys, v < m) ↔ ∀ p ∈ xs.zip ys, f p.1 p.2 < m := by
  rw [← List.map_uncurry_zip_eq_zipWith, List.forall_mem_map]
  rfl

theorem Fits.zip_lt (fits : Fits a b) (ha : a.Reduced) (hb : b.Reduced) {p : ℕ × ℕ} (member : p ∈ a.values.zip b.values) :
    p.1 < a.modulus ∧ p.2 < a.modulus := by
  obtain ⟨left, right⟩ := List.of_mem_zip (a := p.1) (b := p.2) member
  exact ⟨ha _ left, fits.modulus ▸ hb _ right⟩

theorem entrywise_eq (message : String) (f : ℕ → ℕ → ℕ) (fits : Fits a b) :
    entrywise message f a b = .ok ⟨List.zipWith f a.values b.values, a.modulus⟩ := by
  rw [entrywise, if_neg (by simp [fits.modulus, fits.length])]
  rfl

theorem entrywise_returns (message : String) (f : ℕ → ℕ → ℕ) (fits : Fits a b) :
    ReturnsReducedIff (entrywise message f a b) a.modulus a.values.length
      (∀ p ∈ a.values.zip b.values, f p.1 p.2 < a.modulus) := by
  refine ⟨⟨List.zipWith f a.values b.values, a.modulus⟩, entrywise_eq message f fits, rfl, ?_, forall_zipWith_lt⟩
  rw [List.length_zipWith, fits.length, Nat.min_self]

theorem modAdd_returns (word : a.modulus ≤ 2 ^ w.bits) (fits : Fits a b) (ha : a.Reduced) (hb : b.Reduced)
    (message : String) : ReturnsReducedIff (entrywise message (fun x y => modAddFast w x y a.modulus) a b) a.modulus
      a.values.length True := by
  obtain ⟨r, run, modulus, length, reduced⟩ := entrywise_returns message (fun x y => modAddFast w x y a.modulus) fits
  refine ⟨r, run, modulus, length, iff_of_true (reduced.mpr fun p hp => ?_) trivial⟩
  obtain ⟨left, right⟩ := fits.zip_lt ha hb hp
  exact modAddFast_lt left right word

theorem modSub_returns (word : a.modulus ≤ 2 ^ w.bits) (fits : Fits a b) (ha : a.Reduced) (hb : b.Reduced)
    (message : String) : ReturnsReducedIff (entrywise message (fun x y => modSubFast w x y a.modulus) a b) a.modulus
      a.values.length True := by
  obtain ⟨r, run, modulus, length, reduced⟩ := entrywise_returns message (fun x y => modSubFast w x y a.modulus) fits
  refine ⟨r, run, modulus, length, iff_of_true (reduced.mpr fun p hp => ?_) trivial⟩
  obtain ⟨left, right⟩ := fits.zip_lt ha hb hp
  exact modSubFast_lt left right word

theorem modAddNoCheckEq_eq (fits : Fits a b) (message : String) :
    modAddNoCheckEq w a b = entrywise message (fun x y => modAddFast w x y a.modulus) a b := by
  rw [modAddNoCheckEq, entrywise_eq message _ fits, if_neg (by rw [fits.length]; omega)]

theorem products_reduced_iff (h2 : 2 ≤ a.modulus) (room : ¬ modulusTooLarge w a.modulus) (fits : Fits a b)
    (ha : a.Reduced) (hb : b.Reduced) :
    (∀ p ∈ a.values.zip b.values, modMulFastMu w p.1 p.2 a.modulus (computeMu w a.modulus) < a.modulus) ↔
      ProductsFit w a b := by
  refine forall₂_congr fun p hp => ?_
  obtain ⟨left, right⟩ := fits.zip_lt ha hb hp
  exact modMulFastMu_lt_iff h2 room left right

/-- The three products with a vector differ in what they check. -/
theorem modMul_returns (h2 : 2 ≤ a.modulus) (room : ¬ modulusTooLarge w a.modulus) (fits : Fits a b) (ha : a.Reduced)
    (hb : b.Reduced) {run : Except Fault WordVector}
    (form : run = modMul w a b ∨ run = modMulEq w a b ∨ run = modMulNoCheckEq w a b) :
    ReturnsReducedIff run a.modulus a.values.length (ProductsFit w a b) := by
  refine ⟨⟨List.zipWith (fun x y => modMulFastMu w x y a.modulus (computeMu w a.modulus)) a.values b.values, a.modulus⟩,
    ?_, rfl, ?_, forall_zipWith_lt.trans (products_reduced_iff h2 room fits ha hb)⟩
  · have mu : computeMuChecked w a.modulus = .ok (computeMu w a.modulus) := if_neg (by omega)
    rcases form with rfl | rfl | rfl
    · rw [modMul, mu, if_neg (by simp [fits.modulus, fits.length])]
      rfl
    · rw [modMulEq, mu, if_neg (by simp [fits.modulus, fits.length])]
      rfl
    · rw [modMulNoCheckEq, mu]
      dsimp only [bind, Except.bind]
      rw [if_neg (by rw [fits.length]; omega)]
      rfl
  · rw [List.length_zipWith, fits.length, Nat.min_self]

theorem map_returns {f : ℕ → ℕ} (m : ℕ) (below : ∀ v ∈ a.values, f v < m) :
    ReturnsReducedIff (.ok ⟨a.values.map f, m⟩) m a.values.length True := by
  refine ⟨_, rfl, rfl, List.length_map _, iff_of_true ?_ trivial⟩
  intro v hv
  obtain ⟨x, member, rfl⟩ := List.mem_map.mp hv
  exact below x member

theorem reduceScalar_eq {m : ℕ} (pos : 0 < m) (b : ℕ) : reduceScalar b m = .ok (b % m) := by
  by_cases large : b ≥ m
  · rw [reduceScalar, if_pos large, modWord, if_neg pos.ne']
  · rw [reduceScalar, if_neg large, Nat.mod_eq_of_lt (by omega)]

theorem modAddScalar_eq (pos : 0 < a.modulus) (b : ℕ) :
    modAddScalar w a b = .ok ⟨a.values.map fun x => modAddFast w x (b % a.modulus) a.modulus, a.modulus⟩ := by
  rw [modAddScalar, reduceScalar_eq pos]
  rfl

theorem modSubScalar_eq (pos : 0 < a.modulus) (b : ℕ) :
    modSubScalar w a b = .ok ⟨a.values.map fun x => modSubFast w x (b % a.modulus) a.modulus, a.modulus⟩ := by
  rw [modSubScalar, reduceScalar_eq pos]
  rfl

theorem modMulScalar_eq (pos : 0 < a.modulus) (b : ℕ) :
    modMulScalar w a b = .ok ⟨a.values.map fun x => modMulFastConst w x (b % a.modulus) a.modulus
      (wrap w (b % a.modulus * 2 ^ w.bits / a.modulus)), a.modulus⟩ := by
  have prepared : prepModMulConst w (b % a.modulus) a.modulus = .ok (wrap w (b % a.modulus * 2 ^ w.bits / a.modulus)) :=
    if_neg pos.ne'
  rw [modMulScalar, reduceScalar_eq pos]
  dsimp only [bind, Except.bind]
  rw [prepared]
  rfl

theorem modAddScalar_returns (pos : 0 < a.modulus) (word : a.modulus ≤ 2 ^ w.bits) (ha : a.Reduced) (b : ℕ) :
    ReturnsReducedIff (modAddScalar w a b) a.modulus a.values.length True := by
  rw [modAddScalar_eq pos]
  exact map_returns _ fun v hv => modAddFast_lt (ha v hv) (Nat.mod_lt _ pos) word

theorem modSubScalar_returns (pos : 0 < a.modulus) (word : a.modulus ≤ 2 ^ w.bits) (ha : a.Reduced) (b : ℕ) :
    ReturnsReducedIff (modSubScalar w a b) a.modulus a.values.length True := by
  rw [modSubScalar_eq pos]
  exact map_returns _ fun v hv => modSubFast_lt (ha v hv) (Nat.mod_lt _ pos) word

theorem modMulScalar_returns (pos : 0 < a.modulus) (word : a.modulus ≤ 2 ^ w.bits) (ha : a.Reduced) (b : ℕ) :
    ReturnsReducedIff (modMulScalar w a b) a.modulus a.values.length True := by
  rw [modMulScalar_eq pos]
  exact map_returns _ fun v hv => modMulFastConst_lt ((ha v hv).trans_le word) (Nat.mod_lt _ pos) word

theorem modAddAtIndex_returns (h2 : 2 ≤ a.modulus) (word : a.modulus ≤ 2 ^ w.bits) (ha : a.Reduced) {i : ℕ}
    (inside : i < a.values.length) (b : ℕ) : ReturnsReducedIff (modAddAtIndex w a i b) a.modulus a.values.length True := by
  have pos : 0 < a.modulus := by omega
  refine ⟨{ a with values := a.values.set i (NativeInteger.modAdd w a.values[i] b a.modulus) }, ?_, rfl, List.length_set,
    iff_of_true ?_ trivial⟩
  · rw [modAddAtIndex, List.getElem?_eq_getElem inside]
    exact if_neg pos.ne'
  · intro v hv
    rcases List.mem_or_eq_of_mem_set hv with hv | rfl
    · exact ha v hv
    · exact modAddFast_lt (Nat.mod_lt _ pos) (Nat.mod_lt _ pos) word

theorem switchModulus_returns (ha : a.Reduced) {modulus : ℕ} (pos : 2 ≤ modulus) (room : ¬ modulusTooLarge w modulus) :
    ReturnsReducedIff (switchModulus w a modulus) modulus a.values.length True := by
  have checked : NativeVector.setModulus w modulus = .ok () := if_neg room
  have word := lt_of_not_tooLarge room
  rw [switchModulus, checked]
  dsimp only [bind, Except.bind]
  rw [if_neg (by omega)]
  exact map_returns _ fun v hv => NativeVector.switchModulus_lt (ha v hv) (by omega) (by omega)

theorem forall_of_forall₂ {P : ℕ → Prop} {m : ℕ} {xs ys : List ℕ} (each : List.Forall₂ (fun x y => y < m ↔ P x) xs ys) :
    (∀ y ∈ ys, y < m) ↔ ∀ x ∈ xs, P x := by
  induction each with
  | nil => simp
  | cons once _ ih => rw [List.forall_mem_cons, List.forall_mem_cons, once, ih]

theorem mapM_returns {f : ℕ → Except Fault ℕ} {P : ℕ → Prop}
    (entry : ∀ v ∈ a.values, ∃ r, f v = .ok r ∧ (r < a.modulus ↔ P v)) :
    ReturnsReducedIff (do let values ← a.values.mapM f; return { a with values := values }) a.modulus a.values.length
      (∀ v ∈ a.values, P v) := by
  obtain ⟨values, run, each⟩ := Run.mapM_ok (fun v r => r < a.modulus ↔ P v) entry
  refine ⟨{ a with values := values }, ?_, rfl, each.length_eq.symm, forall_of_forall₂ each⟩
  rw [run]
  rfl

/-- A number of the upper half is stored as the modulus just where its rounded absolute value is zero. -/
theorem upper_lt_iff {m r : ℕ} (le : r ≤ m) (word : m < 2 ^ w.bits) : sub w m r < m ↔ r ≠ 0 := by
  rw [sub_of_le le word]
  omega

theorem divideAndRound_returns (h2 : 2 ≤ a.modulus) (word : a.modulus < 2 ^ w.bits) (ha : a.Reduced) {q : ℕ}
    (hq : 1 ≤ q) : ReturnsReducedIff (divideAndRound w a q) a.modulus a.values.length (QuotientsStay q a) := by
  refine mapM_returns fun v hv => ?_
  have below := ha v hv
  by_cases upper : v > a.modulus / 2
  · have tmp : sub w a.modulus v = a.modulus - v := sub_of_le below.le word
    obtain ⟨r, run, le, zero⟩ := divideAndRound_ok (x := a.modulus - v) hq
    refine ⟨sub w a.modulus r, ?_, ?_⟩
    · rw [divideAndRoundEntry, if_pos upper, tmp, run]
      rfl
    · rw [upper_lt_iff (by omega) word, Ne, zero (by omega), not_le]
      exact ⟨fun h _ => h, fun h => h upper⟩
  · obtain ⟨r, run, le, -⟩ := divideAndRound_ok (x := v) hq
    refine ⟨r, ?_, iff_of_true (by omega) fun h => absurd h upper⟩
    rw [divideAndRoundEntry, if_neg upper, run]

theorem multiplyAndRound_returns (h2 : 2 ≤ a.modulus) (word : a.modulus < 2 ^ w.bits) (ha : a.Reduced) {p q : ℕ}
    (hq : 1 ≤ q) (le : p ≤ q) :
    ReturnsReducedIff (multiplyAndRound w a p q) a.modulus a.values.length (RoundedProductsStay p q a) := by
  refine mapM_returns fun v hv => ?_
  have below := ha v hv
  by_cases upper : v > a.modulus / 2
  · have tmp : sub w a.modulus v = a.modulus - v := sub_of_le below.le word
    obtain ⟨r, run, bound, zero⟩ := multiplyAndRound_ok (w := w) (x := a.modulus - v) hq le (by omega)
    refine ⟨sub w a.modulus r, ?_, ?_⟩
    · rw [multiplyAndRoundEntry, if_pos upper, tmp, run]
      rfl
    · rw [upper_lt_iff (by omega) word, Ne, zero, not_lt]
      exact ⟨fun h _ => h, fun h => h upper⟩
  · obtain ⟨r, run, -⟩ := multiplyAndRound_ok (w := w) (x := v) hq le (by omega)
    refine ⟨r % a.modulus, ?_, iff_of_true (Nat.mod_lt _ (by omega)) fun h => absurd h upper⟩
    rw [multiplyAndRoundEntry, if_neg upper, run]
    exact if_neg (by omega)

end WordVector
end MultiKeyFHE
